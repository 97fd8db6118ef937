import SieveRules.Json.Lexer
/-!
From JSON text to values. Every text of the grammar is read, however deep it is nested; what of a
value can be used is asked later, where it is used.
-/

namespace SieveRules

namespace Json

abbrev TokenParser := Parser Token Unit

def itemDelimiter : Token → Option Parser.Delimiter
  | .comma => some .separator
  | .rbracket => some .close
  | _ => none

def memberDelimiter : Token → Option Parser.Delimiter
  | .comma => some .separator
  | .rbrace => some .close
  | _ => none

def memberParser (value : TokenParser Json) : TokenParser (Option String × Json) where
  run
    | .string name :: .colon :: rest => (value.run rest).map fun (v, rest) => ((name, v), rest)
    | _ => .error ()
  consumes {input a rest} h := by
    split at h
    · rename_i name tail
      cases hv : value.run tail with
      | error e => simp [hv, Except.map] at h
      | ok found =>
        simp only [hv, Except.map, Except.ok.injEq, Prod.mk.injEq] at h
        have := value.consumes (hv.trans (congrArg Except.ok (Prod.eta found).symm))
        have := congrArg List.length h.2
        simp only [List.length_cons]
        omega
    · simp at h

/-- One step of reading a value, where the values inside are read by the parser given. -/
def readValue (inner : TokenParser Json) : List Token → Except Unit (Json × List Token)
  | .null :: rest => .ok (null, rest)
  | .bool value :: rest => .ok (bool value, rest)
  | .number value :: rest => .ok (number value, rest)
  | .string value :: rest => .ok (string value, rest)
  | .lbracket :: .rbracket :: rest => .ok (array [], rest)
  | .lbracket :: rest =>
    (inner.list itemDelimiter (fun _ => ()) rest).map fun (items, rest) => (array items, rest)
  | .lbrace :: .rbrace :: rest => .ok (object [], rest)
  | .lbrace :: rest =>
    ((memberParser inner).list memberDelimiter (fun _ => ()) rest).map
      fun (members, rest) => (object members, rest)
  | _ => .error ()

theorem readValue_length {inner : TokenParser Json} {input : List Token} {j : Json}
    {rest : List Token} (h : readValue inner input = .ok (j, rest)) :
    rest.length < input.length := by
  unfold readValue at h
  split at h
  case h_6 tail _ =>
    cases hl : inner.list itemDelimiter (fun _ => ()) tail with
    | error e => simp [hl, Except.map] at h
    | ok found =>
      simp only [hl, Except.map, Except.ok.injEq, Prod.mk.injEq] at h
      have := Parser.list_length (hl.trans (congrArg Except.ok (Prod.eta found).symm))
      have := congrArg List.length h.2
      simp only [List.length_cons]
      omega
  case h_8 tail _ =>
    cases hl : (memberParser inner).list memberDelimiter (fun _ => ()) tail with
    | error e => simp [hl, Except.map] at h
    | ok found =>
      simp only [hl, Except.map, Except.ok.injEq, Prod.mk.injEq] at h
      have := Parser.list_length (hl.trans (congrArg Except.ok (Prod.eta found).symm))
      have := congrArg List.length h.2
      simp only [List.length_cons]
      omega
  case h_9 => simp at h
  all_goals
    simp only [Except.ok.injEq, Prod.mk.injEq] at h
    simp only [← h.2, List.length_cons]
    omega

/-- A value nested in fewer arrays and objects than the given number. -/
def parser : Nat → TokenParser Json
  | 0 => .fail fun _ => ()
  | levels + 1 => ⟨fun input => readValue (parser levels) input, readValue_length⟩

def Token.opens : Token → Bool
  | .lbracket | .lbrace => true
  | _ => false

def read? (text : String) : Option Json :=
  match tokens? text.toList with
  | none => none
  | some tokens =>
    match (parser (tokens.countP Token.opens + 1)).run tokens with
    | .ok (j, []) => some j
    | _ => none

end Json

end SieveRules
