import SieveRules.Json
import SieveRules.Parser
import SieveRules.Text
/-!
The tokens of JSON text. A string is read as its code units first, so that a half of a
surrogate pair on its own is told from a text.
-/

namespace SieveRules

open Text (decimal)

namespace Json

inductive Token where
  | lbrace
  | rbrace
  | lbracket
  | rbracket
  | colon
  | comma
  | null
  | bool (value : Bool)
  | number (value : JsonNumber)
  | string (value : Option String)
  deriving DecidableEq, Repr

def isSpace (c : Char) : Bool :=
  c = ' ' || c = '\t' || c = '\n' || c = '\r'

def hexDigit? (c : Char) : Option Nat :=
  if '0' ≤ c ∧ c ≤ '9' then some (c.toNat - 48)
  else if 'a' ≤ c ∧ c ≤ 'f' then some (c.toNat - 87)
  else if 'A' ≤ c ∧ c ≤ 'F' then some (c.toNat - 55)
  else none

def hexUnit? (a b c d : Char) : Option Nat := do
  let a ← hexDigit? a
  let b ← hexDigit? b
  let c ← hexDigit? c
  let d ← hexDigit? d
  return ((a * 16 + b) * 16 + c) * 16 + d

def unescape? (c : Char) : Option Char :=
  if c = '"' then some '"'
  else if c = '\\' then some '\\'
  else if c = '/' then some '/'
  else if c = 'b' then some '\x08'
  else if c = 'f' then some '\x0c'
  else if c = 'n' then some '\n'
  else if c = 'r' then some '\r'
  else if c = 't' then some '\t'
  else none

def stringUnits : List Char → Option (List Nat × List Char)
  | [] => none
  | '"' :: rest => some ([], rest)
  | '\\' :: 'u' :: a :: b :: c :: d :: rest =>
    match hexUnit? a b c d with
    | none => none
    | some unit => (stringUnits rest).map fun (units, rest) => (unit :: units, rest)
  | '\\' :: c :: rest =>
    match unescape? c with
    | none => none
    | some plain => (stringUnits rest).map fun (units, rest) => (plain.toNat :: units, rest)
  | c :: rest =>
    if c.toNat < 0x20 || c = '\\' then none
    else (stringUnits rest).map fun (units, rest) => (c.toNat :: units, rest)

def isHighSurrogate (unit : Nat) : Bool := 0xd800 ≤ unit && unit < 0xdc00

def isLowSurrogate (unit : Nat) : Bool := 0xdc00 ≤ unit && unit < 0xe000

def unitChar? (unit : Nat) : Option Char :=
  if unit.isValidChar then some (Char.ofNat unit) else none

/-- The text of code units, where every surrogate has its other half. -/
def unitsText? : List Nat → Option (List Char)
  | [] => some []
  | high :: low :: rest =>
    if isHighSurrogate high && isLowSurrogate low then do
      let c ← unitChar? (0x10000 + (high - 0xd800) * 0x400 + (low - 0xdc00))
      let cs ← unitsText? rest
      return c :: cs
    else do
      let c ← unitChar? high
      let cs ← unitsText? (low :: rest)
      return c :: cs
  | [unit] => (unitChar? unit).map fun c => [c]

def digits? (input : List Char) : Option (List Char × List Char) :=
  match input.takeWhile Text.isDigit with
  | [] => none
  | digits => some (digits, input.dropWhile Text.isDigit)

def fraction? : List Char → Option (List Char × List Char)
  | '.' :: rest => digits? rest
  | input => some ([], input)

def exponent? : List Char → Option (Option Int × List Char)
  | c :: rest =>
    if c = 'e' || c = 'E' then
      match rest with
      | '-' :: rest => (digits? rest).map fun (ds, rest) => (some (-(decimal ds : Int)), rest)
      | '+' :: rest => (digits? rest).map fun (ds, rest) => (some (decimal ds : Int), rest)
      | rest => (digits? rest).map fun (ds, rest) => (some (decimal ds : Int), rest)
    else some (none, c :: rest)
  | [] => some (none, [])

/-- The digits before the point. No digit follows a leading zero. -/
def whole? : List Char → Option (List Char × List Char)
  | '0' :: rest => some (['0'], rest)
  | input => digits? input

def number? (input : List Char) : Option (JsonNumber × List Char) := do
  let (negative, input) := match input with
    | '-' :: rest => (true, rest)
    | input => (false, input)
  let (whole, input) ← whole? input
  let (fraction, input) ← fraction? input
  let (exponent, input) ← exponent? input
  return (⟨negative, decimal whole, fraction.map fun c => c.toNat - 48, exponent⟩, input)

def token? : List Char → Option (Token × List Char)
  | [] => none
  | '{' :: rest => some (.lbrace, rest)
  | '}' :: rest => some (.rbrace, rest)
  | '[' :: rest => some (.lbracket, rest)
  | ']' :: rest => some (.rbracket, rest)
  | ':' :: rest => some (.colon, rest)
  | ',' :: rest => some (.comma, rest)
  | '"' :: rest =>
    (stringUnits rest).map fun (units, rest) =>
      (.string ((unitsText? units).map String.ofList), rest)
  | 'n' :: 'u' :: 'l' :: 'l' :: rest => some (.null, rest)
  | 't' :: 'r' :: 'u' :: 'e' :: rest => some (.bool true, rest)
  | 'f' :: 'a' :: 'l' :: 's' :: 'e' :: rest => some (.bool false, rest)
  | input => (number? input).map fun (n, rest) => (.number n, rest)

theorem stringUnits_length {input : List Char} {units : List Nat} {rest : List Char}
    (h : stringUnits input = some (units, rest)) : rest.length < input.length := by
  fun_induction stringUnits input generalizing units with
  | case1 => simp at h
  | case2 => simp_all
  | case3 => simp at h
  | case4 a b c d tail unit _ ih =>
    obtain ⟨⟨us, out⟩, hs, he⟩ := Option.map_eq_some_iff.1 h
    simp only [Prod.mk.injEq] at he
    obtain ⟨rfl, rfl⟩ := he
    have := ih hs
    simp only [List.length_cons]
    omega
  | case5 => simp at h
  | case6 c tail _ plain _ ih =>
    obtain ⟨⟨us, out⟩, hs, he⟩ := Option.map_eq_some_iff.1 h
    simp only [Prod.mk.injEq] at he
    obtain ⟨rfl, rfl⟩ := he
    have := ih hs
    simp only [List.length_cons]
    omega
  | case7 => simp at h
  | case8 c tail _ _ _ _ ih =>
    obtain ⟨⟨us, out⟩, hs, he⟩ := Option.map_eq_some_iff.1 h
    simp only [Prod.mk.injEq] at he
    obtain ⟨rfl, rfl⟩ := he
    have := ih hs
    simp only [List.length_cons]
    omega

theorem digits?_length {input ds rest : List Char} (h : digits? input = some (ds, rest)) :
    rest.length < input.length := by
  unfold digits? at h
  split at h
  · simp at h
  · rename_i hne
    simp only [Option.some.injEq, Prod.mk.injEq] at h
    have whole := congrArg List.length
      (List.takeWhile_append_dropWhile (p := Text.isDigit) (l := input))
    have := List.length_pos_iff.2 hne
    simp only [List.length_append] at whole
    rw [← h.2]
    omega

theorem fraction?_length {input ds rest : List Char} (h : fraction? input = some (ds, rest)) :
    rest.length ≤ input.length := by
  unfold fraction? at h
  split at h
  · have := digits?_length h
    simp only [List.length_cons]
    omega
  · simp_all

theorem exponent?_length {input : List Char} {e : Option Int} {rest : List Char}
    (h : exponent? input = some (e, rest)) : rest.length ≤ input.length := by
  unfold exponent? at h
  split at h
  · split at h
    · split at h <;>
      · obtain ⟨⟨ds, out⟩, hd, he⟩ := Option.map_eq_some_iff.1 h
        have := digits?_length hd
        simp only [Prod.mk.injEq] at he
        obtain ⟨_, rfl⟩ := he
        simp only [List.length_cons]
        omega
    · simp_all
  · simp_all

theorem whole?_length {input ds rest : List Char} (h : whole? input = some (ds, rest)) :
    rest.length < input.length := by
  unfold whole? at h
  split at h
  · simp_all
  · exact digits?_length h

theorem number?_length {input : List Char} {n : JsonNumber} {rest : List Char}
    (h : number? input = some (n, rest)) : rest.length < input.length := by
  unfold number? at h
  simp only [Option.bind_eq_bind, Option.bind_eq_some_iff, Prod.exists, Option.pure_def,
    Option.some.injEq, Prod.mk.injEq] at h
  obtain ⟨ws, r₁, hw, fs, r₂, hf, e, r₃, he, _, rfl⟩ := h
  have := whole?_length hw
  have := fraction?_length hf
  have := exponent?_length he
  split at hw <;> simp_all <;> omega

theorem token?_length {input : List Char} {t : Token} {rest : List Char}
    (h : token? input = some (t, rest)) : rest.length < input.length := by
  unfold token? at h
  split at h
  case h_1 => simp at h
  case h_8 =>
    obtain ⟨⟨us, out⟩, hs, he⟩ := Option.map_eq_some_iff.1 h
    have := stringUnits_length hs
    simp only [Prod.mk.injEq] at he
    obtain ⟨_, rfl⟩ := he
    simp only [List.length_cons]
    omega
  case h_12 =>
    obtain ⟨⟨n, out⟩, hn, he⟩ := Option.map_eq_some_iff.1 h
    simp only [Prod.mk.injEq] at he
    exact he.2 ▸ number?_length hn
  all_goals
    simp only [Option.some.injEq, Prod.mk.injEq] at h
    simp only [← h.2, List.length_cons]
    omega

/-- A token behind any space. Text that is no JSON is all one error. -/
def tokenParser : Parser Char Unit Token where
  run input :=
    match token? (input.dropWhile isSpace) with
    | some found => .ok found
    | none => .error ()
  consumes {input t rest} h := by
    split at h
    · rename_i found hf
      simp only [Except.ok.injEq] at h
      subst h
      exact Nat.lt_of_lt_of_le (token?_length hf) (List.dropWhile_suffix _).length_le
    · simp at h

def tokensDone (input : List Char) : Option (Except Unit (List Char)) :=
  match input.dropWhile isSpace with
  | [] => some (.ok [])
  | _ => none

def tokens? (input : List Char) : Option (List Token) :=
  match tokenParser.many tokensDone input with
  | .ok (tokens, _) => some tokens
  | .error () => none

end Json

end SieveRules
