import SieveRules.Token
/-!
From text to tokens. Every scan returns what it read together with the rest, and the two make up
its input again; a token's offset is the size of the text before it.
-/

namespace SieveRules

open Text

/-- What a scan has found: a value, the text it was read from, and what is left. -/
structure Scanned (α : Type) where
  value : α
  text : List Char
  rest : List Char
  deriving Repr

def Scanned.push (value text : List Char) (s : Scanned (List Char)) : Scanned (List Char) :=
  ⟨value ++ s.value, text ++ s.text, s.rest⟩

inductive Fault where
  | unterminated (what : Unclosed)
  | unexpected (c : Char)
  deriving DecidableEq, Repr

def Fault.at (offset : Nat) : Fault → ScriptError
  | unterminated what => .unterminated what offset
  | unexpected c => .unexpectedChar c offset

namespace Token

/-- A quoted string behind its opening quote. A backslash stands for the character after it. -/
def quotedBody : List Char → Option (Scanned (List Char))
  | [] => none
  | ['\\'] => none
  | '\\' :: c :: rest => (quotedBody rest).map (.push [c] ['\\', c])
  | '"' :: rest => some ⟨[], ['"'], rest⟩
  | c :: rest => (quotedBody rest).map (.push [c] [c])

def commentBody : List Char → Option (Scanned (List Char))
  | [] => none
  | '*' :: '/' :: rest => some ⟨[], ['*', '/'], rest⟩
  | c :: rest => (commentBody rest).map (.push [c] [c])

/-- The lines of a multi-line string, up to a line that holds only a dot. Of two dots that open a
line one is dropped. The flag says whether a line starts here. -/
def multilineBody : Bool → List Char → Option (Scanned (List Char))
  | _, [] => none
  | true, ['.'] => some ⟨[], ['.'], []⟩
  | true, '.' :: '\n' :: rest => some ⟨[], ['.', '\n'], rest⟩
  | true, '.' :: '\r' :: '\n' :: rest => some ⟨[], ['.', '\r', '\n'], rest⟩
  | true, '.' :: '.' :: rest => (multilineBody false rest).map (.push ['.'] ['.', '.'])
  | _, c :: rest => (multilineBody (c = '\n') rest).map (.push [c] [c])

def opensMultiline (input : List Char) : Bool :=
  (input.take 5).map Char.toLower = ['t', 'e', 'x', 't', ':']

/-- A multi-line string. The line of its introducer is not part of it. -/
def multiline? (input : List Char) : Option (Scanned (List Char)) :=
  match input.dropWhile (· ≠ '\n') with
  | [] => none
  | newline :: body =>
    (multilineBody true body).map (.push [] (input.takeWhile (· ≠ '\n') ++ [newline]))

def scanNumber (input : List Char) : Scanned Token :=
  let digits := input.takeWhile isDigit
  match input.dropWhile isDigit with
  | [] => ⟨number (String.ofList digits), digits, []⟩
  | c :: rest =>
    if isScale c then ⟨number (String.ofList (digits ++ [c])), digits ++ [c], rest⟩
    else ⟨number (String.ofList digits), digits, c :: rest⟩

def ofBody (make : String → Token) (what : Unclosed) (opening : List Char) :
    Option (Scanned (List Char)) → Except Fault (Scanned Token)
  | none => .error (.unterminated what)
  | some s => .ok ⟨make (String.ofList s.value), opening ++ s.text, s.rest⟩

/-- The token that starts with the character `c`, which is no blank. -/
def scan (c : Char) (rest : List Char) : Except Fault (Scanned Token) :=
  match punctuation? c with
  | some token => .ok ⟨token, [c], rest⟩
  | none =>
    if c = '#' then
      .ok ⟨comment, c :: rest.takeWhile (· ≠ '\n'), rest.dropWhile (· ≠ '\n')⟩
    else if c = '/' then
      match rest with
      | '*' :: body => ofBody (fun _ => blockComment) .blockComment ['/', '*'] (commentBody body)
      | _ => .error (.unexpected c)
    else if c = '"' then ofBody quoted .string ['"'] (quotedBody rest)
    else if opensMultiline (c :: rest) then ofBody multiline .multiline [] (multiline? (c :: rest))
    else if c = ':' then
      let text := c :: rest.takeWhile isWordPart
      .ok ⟨tag (lowerCase (String.ofList text)), text, rest.dropWhile isWordPart⟩
    else if isDigit c then .ok (scanNumber (c :: rest))
    else if isWordStart c then
      let text := c :: rest.takeWhile isWordPart
      .ok ⟨identifier (String.ofList text), text, rest.dropWhile isWordPart⟩
    else .error (.unexpected c)

theorem quotedBody_split {input : List Char} {s : Scanned (List Char)}
    (h : quotedBody input = some s) : s.text ++ s.rest = input := by
  fun_induction quotedBody input generalizing s with
  | case1 => simp at h
  | case2 => simp at h
  | case3 c rest ih =>
    obtain ⟨s', hs', rfl⟩ := Option.map_eq_some_iff.1 h
    simp [Scanned.push, ih hs']
  | case4 rest => simp only [Option.some.injEq] at h; subst h; rfl
  | case5 c rest _ _ _ ih =>
    obtain ⟨s', hs', rfl⟩ := Option.map_eq_some_iff.1 h
    simp [Scanned.push, ih hs']

theorem commentBody_split {input : List Char} {s : Scanned (List Char)}
    (h : commentBody input = some s) : s.text ++ s.rest = input := by
  fun_induction commentBody input generalizing s with
  | case1 => simp at h
  | case2 rest => simp only [Option.some.injEq] at h; subst h; rfl
  | case3 c rest _ ih =>
    obtain ⟨s', hs', rfl⟩ := Option.map_eq_some_iff.1 h
    simp [Scanned.push, ih hs']

theorem multilineBody_split {lineStart : Bool} {input : List Char} {s : Scanned (List Char)}
    (h : multilineBody lineStart input = some s) : s.text ++ s.rest = input := by
  fun_induction multilineBody lineStart input generalizing s with
  | case1 => simp at h
  | case2 => simp only [Option.some.injEq] at h; subst h; rfl
  | case3 rest => simp only [Option.some.injEq] at h; subst h; rfl
  | case4 rest => simp only [Option.some.injEq] at h; subst h; rfl
  | case5 rest ih =>
    obtain ⟨s', hs', rfl⟩ := Option.map_eq_some_iff.1 h
    simp [Scanned.push, ih hs']
  | case6 _ c rest _ _ _ _ ih =>
    obtain ⟨s', hs', rfl⟩ := Option.map_eq_some_iff.1 h
    simp [Scanned.push, ih hs']

theorem multiline?_split {input : List Char} {s : Scanned (List Char)}
    (h : multiline? input = some s) : s.text ++ s.rest = input := by
  unfold multiline? at h
  split at h
  · simp at h
  · rename_i newline body hd
    obtain ⟨s', hs', rfl⟩ := Option.map_eq_some_iff.1 h
    have whole := List.takeWhile_append_dropWhile (p := (· ≠ '\n')) (l := input)
    rw [hd] at whole
    simpa [Scanned.push, multilineBody_split hs'] using whole

theorem scanNumber_split (input : List Char) :
    (scanNumber input).text ++ (scanNumber input).rest = input := by
  have whole := List.takeWhile_append_dropWhile (p := isDigit) (l := input)
  unfold scanNumber
  simp only
  split
  · rename_i h; simpa [h] using whole
  · rename_i c rest h
    split <;> simpa [h] using whole

theorem ofBody_split {make : String → Token} {what : Unclosed} {opening body : List Char}
    {found : Option (Scanned (List Char))} {s : Scanned Token}
    (split : ∀ {t}, found = some t → t.text ++ t.rest = body)
    (h : ofBody make what opening found = .ok s) : s.text ++ s.rest = opening ++ body := by
  cases found with
  | none => simp [ofBody] at h
  | some t =>
    simp only [ofBody, Except.ok.injEq] at h
    subst h
    simp [split rfl]

theorem scan_split {c : Char} {rest : List Char} {s : Scanned Token} (h : scan c rest = .ok s) :
    s.text ++ s.rest = c :: rest := by
  unfold scan at h
  split at h
  · simp only [Except.ok.injEq] at h; subst h; rfl
  · split at h
    · simp only [Except.ok.injEq] at h; subst h; simp
    · split at h
      · rename_i hc
        split at h
        · exact (ofBody_split commentBody_split h).trans (by simp [hc])
        · simp at h
      · split at h
        · rename_i hc
          exact (ofBody_split quotedBody_split h).trans (by simp [hc])
        · split at h
          · exact ofBody_split multiline?_split h
          · split at h
            · simp only [Except.ok.injEq] at h; subst h; simp
            · split at h
              · simp only [Except.ok.injEq] at h; subst h; exact scanNumber_split _
              · split at h
                · simp only [Except.ok.injEq] at h; subst h; simp
                · simp at h

theorem scan_text_ne_nil {c : Char} {rest : List Char} {s : Scanned Token}
    (h : scan c rest = .ok s) : s.text ≠ [] := by
  unfold scan at h
  split at h
  · simp only [Except.ok.injEq] at h; subst h; simp
  · split at h
    · simp only [Except.ok.injEq] at h; subst h; simp
    · split at h
      · split at h
        · rename_i body
          cases hb : commentBody body with
          | none => simp [ofBody, hb] at h
          | some t => simp only [ofBody, hb, Except.ok.injEq] at h; subst h; simp
        · simp at h
      · split at h
        · cases hb : quotedBody rest with
          | none => simp [ofBody, hb] at h
          | some t => simp only [ofBody, hb, Except.ok.injEq] at h; subst h; simp
        · split at h
          · unfold multiline? at h
            split at h
            · simp [ofBody] at h
            · rename_i newline body _
              cases hb : multilineBody true body with
              | none => simp [ofBody, hb] at h
              | some t =>
                simp only [ofBody, hb, Option.map_some, Except.ok.injEq] at h
                subst h
                simp [Scanned.push]
          · split at h
            · simp only [Except.ok.injEq] at h; subst h; simp
            · split at h
              · rename_i hc
                simp only [Except.ok.injEq] at h
                subst h
                unfold scanNumber
                simp only
                split
                · simp [hc]
                · split <;> simp [hc]
              · split at h
                · simp only [Except.ok.injEq] at h; subst h; simp
                · simp at h

theorem scan_length {c : Char} {rest : List Char} {s : Scanned Token} (h : scan c rest = .ok s) :
    s.rest.length < rest.length + 1 := by
  have split := congrArg List.length (scan_split h)
  have := List.length_pos_iff.2 (scan_text_ne_nil h)
  simp only [List.length_append, List.length_cons] at split
  omega

end Token

/-- The tokens of a text that starts at the given byte. -/
def spansFrom (offset : Nat) (input : List Char) : Except ScriptError (List Span) :=
  match input with
  | [] => .ok []
  | c :: rest =>
    if isBlank c then spansFrom (offset + c.utf8Size) rest
    else
      match _ : Token.scan c rest with
      | .error fault => .error (fault.at offset)
      | .ok found =>
        match spansFrom (offset + size found.text) found.rest with
        | .error e => .error e
        | .ok spans => .ok (⟨found.value, offset⟩ :: spans)
termination_by input.length
decreasing_by
  · simp
  · exact Token.scan_length ‹_›

/-- The tokens of a script, comments included. -/
def tokenize (text : String) : Except ScriptError (List Span) :=
  spansFrom 0 text.toList

end SieveRules
