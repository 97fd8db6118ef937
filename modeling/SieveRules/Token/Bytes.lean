import SieveRules.Token.Lexer
/-!
The tokens of a text found by stepping through its bytes. A byte is read at an index, and text is
cut out between two indices; neither gives a result where an index is out of range, or does not
stand between characters, and then there is no result of the whole.
-/

namespace SieveRules

open Text

/-- The character with the number of a byte. Bytes within a character are those of no ASCII
character. -/
def byte? (text : String) (i : Nat) : Option Char :=
  text.toByteArray.data[i]?.map Char.ofUInt8

/-- The text between two indices, if both stand between characters. -/
def slice? (text : String) (start stop : Nat) : Option String :=
  if h : start ≤ stop ∧ String.Pos.Raw.IsValid text ⟨start⟩ ∧ String.Pos.Raw.IsValid text ⟨stop⟩ then
    some (String.extract (s := text) ⟨⟨start⟩, h.2.1⟩ ⟨⟨stop⟩, h.2.2⟩)
  else none

namespace ByteLexer

def lines : List Char → List (List Char)
  | [] => []
  | c :: rest =>
    if c = '\n' then [c] :: lines rest
    else
      match lines rest with
      | [] => [[c]]
      | line :: more => (c :: line) :: more

/-- Of two dots that open a line one is dropped. -/
def unstuffLine? (line : String) : Option String :=
  if ['.', '.'].isPrefixOf line.toList then slice? line 1 line.utf8ByteSize else some line

def unstuff? (body : String) : Option String := do
  let kept ← (lines body.toList).mapM fun line => unstuffLine? (.ofList line)
  return .join kept

variable (text : String)

def skip (kind : Char → Bool) (i : Nat) : Option Nat :=
  if i < text.utf8ByteSize then do
    let b ← byte? text i
    if kind b then skip kind (i + 1) else return i
  else return i
termination_by text.utf8ByteSize - i

def pass (c : Char) (i : Nat) : Option Nat :=
  if i < text.utf8ByteSize then do
    let b ← byte? text i
    return if b = c then i + 1 else i
  else return i

def nextLine (i : Nat) : Option Nat := do
  let stop ← skip text (· ≠ '\n') i
  return if stop < text.utf8ByteSize then stop + 1 else stop

theorem skip_le {text : String} {kind : Char → Bool} {i j : Nat} (h : skip text kind i = some j) :
    i ≤ j := by
  fun_induction skip text kind i with
  | case1 i hi ih =>
    obtain ⟨b, hb, h⟩ := Option.bind_eq_some_iff.mp h
    split at h
    · exact Nat.le_of_succ_le (ih h)
    · exact Nat.le_of_eq (Option.some.inj h)
  | case2 i hi => exact Nat.le_of_eq (Option.some.inj h)

theorem nextLine_lt {text : String} {i j : Nat} (hi : i < text.utf8ByteSize)
    (h : nextLine text i = some j) : i < j := by
  obtain ⟨stop, hs, h⟩ := Option.bind_eq_some_iff.mp h
  have before := skip_le hs
  have found := Option.some.inj h
  split at found <;> omega

def endsBody (i : Nat) : Option Bool := do
  let b ← byte? text i
  if b ≠ '.' then return false
  else if i + 1 < text.utf8ByteSize then
    let next ← byte? text (i + 1)
    if next = '\n' then return true
    else if next = '\r' ∧ i + 2 < text.utf8ByteSize then return (← byte? text (i + 2)) = '\n'
    else return false
  else return true

/-- The index of the dot that ends a multi-line string, from the start of a line on. -/
def endDot (i : Nat) : Option (Except Unclosed Nat) :=
  if _ : i < text.utf8ByteSize then do
    let ends ← endsBody text i
    if ends then return .ok i
    else
      match _ : nextLine text i with
      | none => none
      | some next => endDot next
  else return .error .multiline
termination_by text.utf8ByteSize - i
decreasing_by
  have := nextLine_lt ‹_› ‹_›
  omega

def closesComment (i : Nat) : Option Bool := do
  let b ← byte? text i
  if b = '*' then return (← byte? text (i + 1)) = '/' else return false

def commentEnd (i : Nat) : Option (Except Unclosed Nat) :=
  if i + 1 < text.utf8ByteSize then do
    let closes ← closesComment text i
    if closes then return .ok (i + 2) else commentEnd (i + 1)
  else return .error .blockComment
termination_by text.utf8ByteSize - i

abbrev Found := Except Fault (Token × Nat)

def opensComment (start : Nat) : Option Bool := do
  let b ← byte? text start
  if b = '/' ∧ start + 1 < text.utf8ByteSize then return (← byte? text (start + 1)) = '*'
  else return false

def commentAt (start : Nat) : Option Found := do
  let stop ← commentEnd text (start + 2)
  match stop with
  | .ok stop => return .ok (.blockComment, stop)
  | .error what => return .error (.unterminated what)

/-- A quoted string is read by characters, from text that is cut out. -/
def quotedAt (start : Nat) : Option Found := do
  let behind ← slice? text (start + 1) text.utf8ByteSize
  match Token.quotedBody behind.toList with
  | some s => return .ok (.quoted (.ofList s.value), start + 1 + size s.text)
  | none => return .error (.unterminated .string)

def opensMultiline (start : Nat) : Option Bool := do
  let b ← byte? text start
  if (b = 't' ∨ b = 'T') ∧ start + 4 < text.utf8ByteSize then
    let word ← (List.range' start 5).mapM (byte? text)
    return word.map Char.toLower = ['t', 'e', 'x', 't', ':']
  else return false

def multilineAt (start : Nat) : Option Found := do
  let body ← nextLine text (start + 5)
  let stop ← endDot text body
  match stop with
  | .ok dot =>
    let value ← unstuff? (← slice? text body dot)
    let stop ← pass text '\n' (← pass text '\r' (dot + 1))
    return .ok (.multiline value, stop)
  | .error what => return .error (.unterminated what)

def spelled (make : String → Token) (start stop : Nat) : Option Found := do
  let spelling ← slice? text start stop
  return .ok (make spelling, stop)

def numberEnd (start : Nat) : Option Nat := do
  let digits ← skip text isDigit start
  if digits < text.utf8ByteSize then
    let b ← byte? text digits
    return if isScale b then digits + 1 else digits
  else return digits

def unexpectedAt (start : Nat) : Option Found := do
  let behind ← slice? text start text.utf8ByteSize
  return .error (.unexpected (behind.toList.head?.getD '\ufffd'))

def tokenAt (start : Nat) : Option Found := do
  let b ← byte? text start
  let comments ← opensComment text start
  let multiline ← opensMultiline text start
  match Token.punctuation? b with
  | some token => return .ok (token, start + 1)
  | none =>
    if b = '#' then
      let stop ← skip text (· ≠ '\n') (start + 1)
      return .ok (.comment, stop)
    else if comments then commentAt text start
    else if b = '"' then quotedAt text start
    else if multiline then multilineAt text start
    else if b = ':' then
      let stop ← skip text isWordPart (start + 1)
      spelled text (.tag ∘ lowerCase) start stop
    else if isDigit b then
      let stop ← numberEnd text start
      spelled text .number start stop
    else if isWordStart b then
      let stop ← skip text isWordPart start
      spelled text .identifier start stop
    else unexpectedAt text start

section

variable {text : String} {start stop : Nat} {token : Token}

theorem pass_le {c : Char} {i j : Nat} (h : pass text c i = some j) : i ≤ j := by
  unfold pass at h
  split at h
  · obtain ⟨b, -, h⟩ := Option.bind_eq_some_iff.mp h
    have found := Option.some.inj h
    split at found <;> omega
  · exact Nat.le_of_eq (Option.some.inj h)

theorem nextLine_le {i j : Nat} (h : nextLine text i = some j) : i ≤ j := by
  obtain ⟨stop, hs, h⟩ := Option.bind_eq_some_iff.mp h
  have before := skip_le hs
  have found := Option.some.inj h
  split at found <;> omega

theorem endDot_le {i j : Nat} (h : endDot text i = some (.ok j)) : i ≤ j := by
  fun_induction endDot text i with
  | case1 i hi ih =>
    obtain ⟨ends, -, h⟩ := Option.bind_eq_some_iff.mp h
    split at h
    · exact Nat.le_of_eq (Except.ok.inj (Option.some.inj h))
    · split at h
      · cases h
      · rename_i next hn
        have further := ih next hn h
        have := nextLine_le hn
        omega
  | case2 i hi => cases h

theorem commentEnd_le {i j : Nat} (h : commentEnd text i = some (.ok j)) : i ≤ j := by
  fun_induction commentEnd text i with
  | case1 i hi ih =>
    obtain ⟨ends, -, h⟩ := Option.bind_eq_some_iff.mp h
    split at h
    · have := Except.ok.inj (Option.some.inj h)
      omega
    · exact Nat.le_of_succ_le (ih h)
  | case2 i hi => cases h

theorem byte?_lt {i : Nat} {b : Char} (h : byte? text i = some b) : i < text.utf8ByteSize := by
  obtain ⟨byte, hb, -⟩ := Option.map_eq_some_iff.mp h
  exact (Array.getElem?_eq_some_iff.mp hb).1

theorem skip_lt {kind : Char → Bool} {i j : Nat} {b : Char} (hb : byte? text i = some b)
    (hk : kind b = true) (h : skip text kind i = some j) : i < j := by
  rw [skip, if_pos (byte?_lt hb), hb] at h
  exact skip_le ((if_pos hk).symm.trans h)

theorem commentAt_lt (h : commentAt text start = some (.ok (token, stop))) : start < stop := by
  obtain ⟨ends, hs, h⟩ := Option.bind_eq_some_iff.mp h
  split at h
  · cases h
    have := commentEnd_le hs
    omega
  · cases h

theorem quotedAt_lt (h : quotedAt text start = some (.ok (token, stop))) : start < stop := by
  obtain ⟨behind, -, h⟩ := Option.bind_eq_some_iff.mp h
  split at h
  · cases h
    omega
  · cases h

theorem multilineAt_lt (h : multilineAt text start = some (.ok (token, stop))) : start < stop := by
  obtain ⟨body, hb, h⟩ := Option.bind_eq_some_iff.mp h
  obtain ⟨ends, hd, h⟩ := Option.bind_eq_some_iff.mp h
  split at h
  · obtain ⟨cut, -, h⟩ := Option.bind_eq_some_iff.mp h
    obtain ⟨value, -, h⟩ := Option.bind_eq_some_iff.mp h
    obtain ⟨behind, hr, h⟩ := Option.bind_eq_some_iff.mp h
    obtain ⟨stop', hn, h⟩ := Option.bind_eq_some_iff.mp h
    cases h
    have := nextLine_le hb
    have := endDot_le hd
    have := pass_le hr
    have := pass_le hn
    omega
  · cases h

theorem spelled_stop {make : String → Token} {stop' : Nat}
    (h : spelled text make start stop' = some (.ok (token, stop))) : stop' = stop := by
  obtain ⟨spelling, -, h⟩ := Option.bind_eq_some_iff.mp h
  cases h
  rfl

theorem numberEnd_lt {b : Char} (hb : byte? text start = some b) (hd : isDigit b = true)
    (h : numberEnd text start = some stop) : start < stop := by
  obtain ⟨digits, hs, h⟩ := Option.bind_eq_some_iff.mp h
  have before := skip_lt hb hd hs
  split at h
  · obtain ⟨next, -, h⟩ := Option.bind_eq_some_iff.mp h
    have found := Option.some.inj h
    split at found <;> omega
  · exact Option.some.inj h ▸ before

theorem tokenAt_lt (h : tokenAt text start = some (.ok (token, stop))) : start < stop := by
  obtain ⟨b, hb, h⟩ := Option.bind_eq_some_iff.mp h
  obtain ⟨comments, -, h⟩ := Option.bind_eq_some_iff.mp h
  obtain ⟨multiline, -, h⟩ := Option.bind_eq_some_iff.mp h
  split at h
  · cases h
    exact Nat.lt_succ_self start
  · split at h
    · obtain ⟨stop', hs, h⟩ := Option.bind_eq_some_iff.mp h
      cases h
      exact skip_le hs
    · split at h
      · exact commentAt_lt h
      · split at h
        · exact quotedAt_lt h
        · split at h
          · exact multilineAt_lt h
          · split at h
            · obtain ⟨stop', hs, h⟩ := Option.bind_eq_some_iff.mp h
              exact spelled_stop h ▸ skip_le hs
            · split at h
              · rename_i hd
                obtain ⟨stop', hs, h⟩ := Option.bind_eq_some_iff.mp h
                exact spelled_stop h ▸ numberEnd_lt hb hd hs
              · split at h
                · rename_i hw
                  have part : isWordPart b = true := by simp [isWordPart, hw]
                  obtain ⟨stop', hs, h⟩ := Option.bind_eq_some_iff.mp h
                  exact spelled_stop h ▸ skip_lt hb part hs
                · obtain ⟨behind, -, h⟩ := Option.bind_eq_some_iff.mp h
                  cases h

end

def spansFrom (text : String) (i : Nat) : Option (Except ScriptError (List Span)) :=
  if i < text.utf8ByteSize then
    match byte? text i with
    | none => none
    | some b =>
      if isBlank b then spansFrom text (i + 1)
      else
        match _ : tokenAt text i with
        | none => none
        | some (.error fault) => some (.error (fault.at i))
        | some (.ok (token, stop)) =>
          (spansFrom text stop).map (Except.map (⟨token, i⟩ :: ·))
  else some (.ok [])
termination_by text.utf8ByteSize - i
decreasing_by
  · omega
  · have := tokenAt_lt ‹_›
    omega

/-- The tokens of a script; none where a byte or a piece of text that is not there is asked for. -/
def tokenize (text : String) : Option (Except ScriptError (List Span)) :=
  spansFrom text 0

end ByteLexer

end SieveRules
