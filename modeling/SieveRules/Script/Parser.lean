import SieveRules.Parser
import SieveRules.Script
import SieveRules.Token.Lexer
/-!
From tokens to the tree of a script. Tests and blocks are read with a number of levels left, one
less inside each; where none is left the script is too deep.
-/

namespace SieveRules

open Text

abbrev SpanParser := Parser Span ScriptError

def Expectation.unmet (what : Expectation) : List Span → ScriptError
  | [] => .unexpectedEnd what
  | span :: _ => .expected what span.token span.offset

def ScriptError.deepAt : List Span → ScriptError
  | [] => .tooDeep 0
  | span :: _ => .tooDeep span.offset

namespace Argument

def item : SpanParser String where
  run
    | [] => .error (Expectation.string.unmet [])
    | span :: rest =>
      match span.token.string? with
      | some value => .ok (value, rest)
      | none => .error (Expectation.string.unmet (span :: rest))
  consumes {input a rest} h := by
    cases input with
    | nil => simp at h
    | cons span tail =>
      simp only at h
      split at h <;> simp_all

def delimiter (span : Span) : Option Parser.Delimiter :=
  match span.token with
  | .comma => some .separator
  | .rbracket => some .close
  | _ => none

/-- The strings of a list behind its opening bracket. The list may be empty. -/
def items : List Span → Except ScriptError (List String × List Span)
  | ⟨.rbracket, _⟩ :: rest => .ok ([], rest)
  | input => item.list delimiter Expectation.listEnd.unmet input

theorem items_length {input : List Span} {values : List String} {rest : List Span}
    (h : items input = .ok (values, rest)) : rest.length < input.length := by
  unfold items at h
  split at h
  · simp only [Except.ok.injEq, Prod.mk.injEq] at h
    simp [h.2]
  · exact Parser.list_length h

def ofToken? : Token → Option Argument
  | .quoted value | .multiline value => some (string value)
  | .number digits => some (number digits)
  | .tag name => some (tag name)
  | _ => none

def parser : SpanParser Argument where
  run
    | [] => .error (Expectation.string.unmet [])
    | ⟨.lbracket, _⟩ :: rest => (items rest).map fun (values, rest) => (stringList values, rest)
    | span :: rest =>
      match ofToken? span.token with
      | some argument => .ok (argument, rest)
      | none => .error (Expectation.string.unmet (span :: rest))
  consumes {input a rest} h := by
    split at h
    · simp at h
    · rename_i tail
      cases hi : items tail with
      | error e => simp [hi, Except.map] at h
      | ok found =>
        simp only [hi, Except.map, Except.ok.injEq, Prod.mk.injEq] at h
        have := items_length (hi.trans (congrArg Except.ok (Prod.eta found).symm))
        simp only [List.length_cons, ← h.2]
        omega
    · split at h <;> simp_all

def starts (token : Token) : Bool :=
  token = .lbracket || (ofToken? token).isSome

def done : List Span → Option (Except ScriptError (List Span))
  | [] => some (.ok [])
  | span :: rest => if starts span.token then none else some (.ok (span :: rest))

theorem done_length {input rest : List Span} (h : done input = some (.ok rest)) :
    rest.length ≤ input.length := by
  unfold done at h
  split at h <;> simp_all

def sequence (input : List Span) : Except ScriptError (List Argument × List Span) :=
  parser.many done input

theorem sequence_length {input : List Span} {as : List Argument} {rest : List Span}
    (h : sequence input = .ok (as, rest)) : rest.length ≤ input.length :=
  Parser.many_length done_length h

end Argument

namespace Test

def delimiter (span : Span) : Option Parser.Delimiter :=
  match span.token with
  | .comma => some .separator
  | .rparen => some .close
  | _ => none

/-- What may follow arguments: one test, a list of tests in parentheses, or nothing. -/
def trailing (test : SpanParser Test) (input : List Span) :
    Except ScriptError (List Test × List Span) :=
  match input with
  | ⟨.identifier _, _⟩ :: _ => (test.run input).map fun (t, rest) => ([t], rest)
  | ⟨.lparen, _⟩ :: rest => test.list delimiter Expectation.testListEnd.unmet rest
  | _ => .ok ([], input)

theorem trailing_length {test : SpanParser Test} {input : List Span} {tests : List Test}
    {rest : List Span} (h : trailing test input = .ok (tests, rest)) :
    rest.length ≤ input.length := by
  unfold trailing at h
  split at h
  · rename_i name offset tail
    cases ht : test.run (⟨.identifier name, offset⟩ :: tail) with
    | error e => simp [ht, Except.map] at h
    | ok found =>
      simp only [ht, Except.map, Except.ok.injEq, Prod.mk.injEq] at h
      exact h.2 ▸ Nat.le_of_lt (test.consumes (ht.trans (congrArg Except.ok (Prod.eta found).symm)))
  · have := Parser.list_length h
    simp only [List.length_cons]
    omega
  · simp_all

def header (what : Expectation) (inner : SpanParser Test) :
    SpanParser (String × List Argument × List Test) where
  run
    | ⟨.identifier name, _⟩ :: rest =>
      match Argument.sequence rest with
      | .error e => .error e
      | .ok (args, rest) =>
        match trailing inner rest with
        | .error e => .error e
        | .ok (tests, rest) => .ok ((lowerCase name, args, tests), rest)
    | input => .error (what.unmet input)
  consumes {input a rest} h := by
    split at h
    · split at h
      · simp at h
      · rename_i args mid ha
        split at h
        · simp at h
        · rename_i tests out ht
          simp only [Except.ok.injEq, Prod.mk.injEq] at h
          have := Argument.sequence_length ha
          have := trailing_length ht
          simp only [List.length_cons, ← h.2]
          omega
    · simp at h

def parser : Nat → SpanParser Test
  | 0 => .fail .deepAt
  | levels + 1 => (header .test (parser levels)).map fun (name, args, tests) => ⟨name, args, tests⟩

end Test

namespace Command

/-- A command whose tests and whose block are read by the parsers given. -/
def parserWith (test : SpanParser Test) (block : SpanParser (List Command)) : SpanParser Command where
  run input :=
    match (Test.header .command test).run input with
    | .error e => .error e
    | .ok ((name, args, tests), ⟨.semicolon, _⟩ :: rest) => .ok (⟨name, args, tests, none⟩, rest)
    | .ok ((name, args, tests), ⟨.lbrace, _⟩ :: rest) =>
      (block.run rest).map fun (commands, rest) => (⟨name, args, tests, some commands⟩, rest)
    | .ok (_, rest) => .error (Expectation.commandEnd.unmet rest)
  consumes {input a rest} h := by
    split at h
    · simp at h
    · rename_i hh
      have := (Test.header .command test).consumes hh
      simp only [Except.ok.injEq, Prod.mk.injEq] at h
      simp only [List.length_cons] at this
      have := congrArg List.length h.2
      omega
    · rename_i tail hh
      have := (Test.header .command test).consumes hh
      cases hb : block.run tail with
      | error e => simp [hb, Except.map] at h
      | ok found =>
        simp only [hb, Except.map, Except.ok.injEq, Prod.mk.injEq] at h
        have := block.consumes (hb.trans (congrArg Except.ok (Prod.eta found).symm))
        have := congrArg List.length h.2
        simp only [List.length_cons] at *
        omega
    · simp at h

/-- A block ends at its closing brace, which it needs. -/
def blockDone : List Span → Option (Except ScriptError (List Span))
  | [] => some (.error (Expectation.blockEnd.unmet []))
  | ⟨.rbrace, _⟩ :: rest => some (.ok rest)
  | _ => none

def blockParser : Nat → SpanParser (List Command)
  | 0 => .fail .deepAt
  | levels + 1 => .manyUntil (parserWith (Test.parser levels) (blockParser levels)) blockDone (by
      intro input rest h
      unfold blockDone at h
      split at h <;> simp_all)

def scriptDone : List Span → Option (Except ScriptError (List Span))
  | [] => some (.ok [])
  | _ => none

end Command

namespace Script

/-- The script that a list of tokens makes. Comments say nothing. -/
def ofSpans (spans : List Span) : Except ScriptError Script :=
  let command := Command.parserWith (Test.parser maxDepth) (Command.blockParser maxDepth)
  (command.many Command.scriptDone (spans.filter fun s => !s.token.isComment)).map
    fun (commands, _) => ⟨commands⟩

def parse (text : String) : Except ScriptError Script :=
  match tokenize text with
  | .error e => .error e
  | .ok spans => ofSpans spans

end Script

end SieveRules
