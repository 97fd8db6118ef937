import SieveRules.Proofs.MultilineBytes
/-!
Stepping through the bytes of a text finds the tokens that reading its characters finds: every byte
that is asked for is there, and text is only cut out between characters.
-/

namespace SieveRules

open Text

namespace ByteLexer

variable {text : String} {i : Nat} {c : Char} {input rest : List Char}

theorem commentEnd_step (h : i + 1 < text.utf8ByteSize → closesComment text i = some false) :
    commentEnd text i = commentEnd text (i + 1) := by
  by_cases hi : i + 1 < text.utf8ByteSize
  · rw [commentEnd, if_pos hi, h hi]
    rfl
  · have further : ¬ i + 1 + 1 < text.utf8ByteSize := by omega
    rw [commentEnd, if_neg hi, commentEnd, if_neg further]

theorem commentEnd_next (h : StandsAt text i (c :: rest)) (hc : c ≠ '*') :
    commentEnd text i = commentEnd text (i + c.utf8Size) := by
  have steps : ∀ n, n ≤ c.utf8Size → commentEnd text i = commentEnd text (i + n) := by
    intro n hn
    induction n with
    | zero => rfl
    | succ n ih =>
      obtain ⟨b, hb, looks⟩ := h.byte_within hn
      have other : b ≠ '*' := fun he => hc ((looks.eq_iff (by decide)).mp he)
      rw [ih (Nat.le_of_succ_le hn)]
      refine commentEnd_step fun _ => ?_
      rw [closesComment, hb]
      exact if_neg other
  exact steps _ (Nat.le_refl _)

def stopOf {α : Type} (what : Unclosed) (i : Nat) : Option (Scanned α) → Except Unclosed Nat
  | some s => .ok (i + size s.text)
  | none => .error what

theorem commentEnd_body (h : StandsAt text i input) :
    commentEnd text i = some (stopOf .blockComment i (Token.commentBody input)) := by
  fun_induction Token.commentBody input generalizing i with
  | case1 =>
    have ends := h.not_lt
    rw [commentEnd, if_neg (by omega)]
    rfl
  | case2 rest =>
    have slash := h.ascii rfl
    obtain ⟨b, hb, looks⟩ := h.byte
    obtain ⟨b', hb', looks'⟩ := slash.byte
    obtain rfl := (looks.eq_iff (by decide)).mpr rfl
    obtain rfl := (looks'.eq_iff (by decide)).mpr rfl
    rw [commentEnd, if_pos slash.lt, closesComment, hb]
    simp only [Option.bind_eq_bind, Option.bind_some, if_true, hb']
    rfl
  | case3 c rest open' ih =>
    have stepped : commentEnd text i = commentEnd text (i + c.utf8Size) := by
      by_cases star : c = '*'
      · subst star
        refine commentEnd_step fun hi => ?_
        have next := h.ascii rfl
        cases rest with
        | nil => exact absurd hi next.not_lt
        | cons d rest =>
          obtain ⟨b, hb, looks⟩ := h.byte
          obtain ⟨b', hb', looks'⟩ := next.byte
          obtain rfl := (looks.eq_iff (by decide)).mpr rfl
          have other : b' ≠ '/' := by
            intro he
            obtain rfl := (looks'.eq_iff (by decide)).mp he
            exact open' rest rfl rfl
          rw [closesComment, hb]
          simp [hb', other]
      · exact commentEnd_next h star
    rw [stepped, ih h.next]
    cases Token.commentBody rest with
    | none => rfl
    | some s => simp [stopOf, Scanned.push, Nat.add_assoc]

theorem opensComment_at (h : StandsAt text i (c :: rest)) :
    opensComment text i = some (decide (c = '/' ∧ rest.head? = some '*')) := by
  obtain ⟨b, hb, looks⟩ := h.byte
  rw [opensComment, hb]
  simp only [Option.bind_eq_bind, Option.bind_some]
  by_cases slash : c = '/'
  · subst slash
    obtain rfl := (looks.eq_iff (by decide)).mpr rfl
    have next := h.ascii rfl
    cases rest with
    | nil => simp [next.not_lt]
    | cons d rest =>
      obtain ⟨b', hb', looks'⟩ := next.byte
      simp [next.lt, hb', looks'.eq_iff (d := '*') (by decide)]
  · have other : b ≠ '/' := fun he => slash ((looks.eq_iff (by decide)).mp he)
    simp [slash, other]

theorem spelled_taken {make : String → Token} {taken : List Char}
    (h : StandsAt text i (taken ++ rest)) :
    spelled text make i (i + size taken) =
      some (.ok (make (.ofList taken), i + size taken)) := by
  rw [spelled, h.slice]
  rfl

theorem scanNumber_value (input : List Char) :
    (Token.scanNumber input).value = .number (.ofList (Token.scanNumber input).text) := by
  unfold Token.scanNumber
  simp only
  split
  · rfl
  · split <;> rfl

theorem numberEnd_scan (h : StandsAt text i input) :
    numberEnd text i = some (i + size (Token.scanNumber input).text) := by
  have whole := List.takeWhile_append_dropWhile (p := isDigit) (l := input)
  rw [numberEnd, skip_run isAsciiKind_digit h]
  simp only [Option.bind_eq_bind, Option.bind_some]
  rw [← whole] at h
  have behind := h.behind
  unfold Token.scanNumber
  cases hd : input.dropWhile isDigit with
  | nil =>
    rw [hd] at behind
    rw [if_neg behind.not_lt]
    rfl
  | cons d more =>
    rw [hd] at behind
    obtain ⟨b, hb, looks⟩ := behind.byte
    rw [if_pos behind.lt, hb]
    simp only [Option.bind_some, looks.kind isAsciiKind_scale]
    split
    · rename_i scale
      have one := utf8Size_of_ascii (ascii_of_wordPart (word_part_of_scale scale))
      simp [one, Nat.add_assoc]
    · rfl

theorem quotedAt_body (h : StandsAt text i ('"' :: rest)) :
    quotedAt text i = some ((Token.ofBody .quoted .string ['"'] (Token.quotedBody rest)).map
      fun found => (found.value, i + size found.text)) := by
  have next := h.ascii rfl
  rw [quotedAt, next.slice_end]
  simp only [Option.bind_eq_bind, Option.bind_some, String.toList_ofList]
  have quote : '"'.utf8Size = 1 := rfl
  cases Token.quotedBody rest with
  | none => rfl
  | some s => simp [Token.ofBody, Except.map, Nat.add_assoc, quote]

theorem commentAt_body (h : StandsAt text i ('/' :: '*' :: rest)) :
    commentAt text i = some ((Token.ofBody (fun _ => .blockComment) .blockComment ['/', '*']
      (Token.commentBody rest)).map fun found => (found.value, i + size found.text)) := by
  have body : StandsAt text (i + 2) rest := (h.ascii rfl).ascii rfl
  rw [commentAt, commentEnd_body body]
  have opening : size ['/', '*'] = 2 := rfl
  cases Token.commentBody rest with
  | none => rfl
  | some s =>
    simp only [stopOf, Token.ofBody, Except.map, Option.bind_eq_bind, Option.bind_some, size_append,
      opening, Nat.add_assoc]
    rfl

theorem unexpectedAt_char (h : StandsAt text i (c :: rest)) :
    unexpectedAt text i = some (.error (.unexpected c)) := by
  rw [unexpectedAt, h.slice_end]
  simp

theorem punctuation_ascii {token : Token} (h : Token.punctuation? c = some token) :
    c.toNat < 128 := by
  unfold Token.punctuation? at h
  repeat' split at h
  all_goals first | (subst c; decide) | cases h

theorem beyond_plain (h : 128 ≤ c.toNat) :
    Token.punctuation? c = none ∧ isDigit c = false ∧ isWordStart c = false ∧
      ∀ d : Char, d.toNat < 128 → c ≠ d := by
  refine ⟨?_, ?_, ?_, ?_⟩
  · cases hp : Token.punctuation? c with
    | none => rfl
    | some token => exact absurd (punctuation_ascii hp) (by omega)
  · exact Bool.eq_false_iff.mpr fun hd =>
      absurd (ascii_of_wordPart (word_part_of_digit hd)) (by omega)
  · exact Bool.eq_false_iff.mpr fun hd =>
      absurd (ascii_of_wordPart (word_part_of_start hd)) (by omega)
  · rintro d hd rfl
    omega

theorem opensMultiline_beyond (h : 128 ≤ c.toNat) :
    Token.opensMultiline (c :: rest) = false := by
  refine Bool.eq_false_iff.mpr fun opens => ?_
  rcases opens_letter opens with rfl | rfl <;> exact absurd h (by decide)

theorem scan_beyond (h : 128 ≤ c.toNat) : Token.scan c rest = .error (.unexpected c) := by
  obtain ⟨plain, digit, word, distinct⟩ := beyond_plain h
  unfold Token.scan
  simp [plain, digit, word, opensMultiline_beyond h, distinct '#' (by decide),
    distinct '/' (by decide), distinct '"' (by decide), distinct ':' (by decide)]

theorem tokenAt_beyond {b : Char} (h : StandsAt text i (c :: rest)) (hb : byte? text i = some b)
    (beyond : 128 ≤ b.toNat) (beyond' : 128 ≤ c.toNat) :
    tokenAt text i = some (.error (.unexpected c)) := by
  obtain ⟨plain, digit, word, distinct⟩ := beyond_plain beyond
  have slash : c ≠ '/' := (beyond_plain beyond').2.2.2 '/' (by decide)
  have comments : opensComment text i = some false := by
    rw [opensComment_at h]
    simp [slash]
  have multiline : opensMultiline text i = some false := by
    rw [opensMultiline_at h, opensMultiline_beyond beyond']
  rw [tokenAt, hb]
  simp [comments, multiline, plain, digit, word, distinct '#' (by decide),
    distinct '"' (by decide), distinct ':' (by decide), unexpectedAt_char h]

theorem scan_slash (h : rest.head? ≠ some '*') :
    Token.scan '/' rest = .error (.unexpected '/') := by
  have plain : Token.punctuation? '/' = none := rfl
  unfold Token.scan
  simp only [plain]
  rw [if_neg (by decide), if_pos trivial]
  split
  · exact absurd rfl h
  · rfl

theorem tokenAt_slash (h : StandsAt text i ('/' :: rest)) (hb : byte? text i = some '/') :
    tokenAt text i = some ((Token.scan '/' rest).map fun found =>
      (found.value, i + size found.text)) := by
  have plain : Token.punctuation? '/' = none := rfl
  have multiline : Token.opensMultiline ('/' :: rest) = false := by
    refine Bool.eq_false_iff.mpr fun opens => ?_
    rcases opens_letter opens with he | he <;> exact absurd he (by decide)
  rw [tokenAt, hb]
  simp only [Option.bind_eq_bind, Option.bind_some, opensComment_at h, opensMultiline_at h, plain,
    multiline]
  by_cases star : rest.head? = some '*'
  · obtain ⟨body, rfl⟩ := List.head?_eq_some_iff.mp star
    exact commentAt_body h
  · rw [if_neg (by decide), if_neg (by simp [star]), if_neg (by decide), if_neg (by decide),
      if_neg (by decide), if_neg (by decide), if_neg (by decide), scan_slash star]
    exact unexpectedAt_char h

/-- At an index a token is found, or the fault, that a scan of the characters from there on gives. -/
theorem tokenAt_scan (h : StandsAt text i (c :: rest)) :
    tokenAt text i = some ((Token.scan c rest).map fun found =>
      (found.value, i + size found.text)) := by
  obtain ⟨b, hb, ⟨rfl, one⟩ | ⟨beyond, beyond'⟩⟩ := h.byte
  · by_cases slash : b = '/'
    · subst slash
      exact tokenAt_slash h hb
    have next := h.ascii one
    rw [tokenAt, hb]
    simp only [Option.bind_eq_bind, Option.bind_some, opensComment_at h, opensMultiline_at h]
    unfold Token.scan
    cases hp : Token.punctuation? b with
    | some token =>
      simp only [Except.map, size_cons, size_nil, one]
      rfl
    | none =>
      simp only
      by_cases hash : b = '#'
      · rw [if_pos hash, if_pos hash, skip_run isAsciiKind_line next]
        simp only [Except.map, size_cons, one, Nat.add_assoc]
        rfl
      rw [if_neg hash, if_neg hash, if_neg slash, if_neg (by simp [slash])]
      by_cases quote : b = '"'
      · subst quote
        exact quotedAt_body h
      rw [if_neg quote, if_neg quote]
      by_cases lines : Token.opensMultiline (b :: rest) = true
      · rw [if_pos lines, if_pos lines]
        exact multilineAt_body h lines
      rw [if_neg lines, if_neg lines]
      have run := List.takeWhile_append_dropWhile (p := isWordPart) (l := rest)
      have parts : StandsAt text i
          ((b :: rest.takeWhile isWordPart) ++ rest.dropWhile isWordPart) := by
        rwa [List.cons_append, run]
      by_cases colon : b = ':'
      · have taken : spelled text (.tag ∘ lowerCase) i _ = _ := spelled_taken parts
        rw [size_cons, one, ← Nat.add_assoc] at taken
        rw [if_pos colon, if_pos colon, skip_run isAsciiKind_wordPart next]
        simp only [Option.bind_some, taken, Except.map, size_cons, one, ← Nat.add_assoc]
        rfl
      rw [if_neg colon, if_neg colon]
      by_cases digit : isDigit b = true
      · rw [if_pos digit, if_pos digit, numberEnd_scan h]
        have number := h
        rw [← Token.scanNumber_split (b :: rest)] at number
        simp only [Option.bind_some, spelled_taken number, ← scanNumber_value]
        rfl
      rw [if_neg digit, if_neg digit]
      by_cases word : isWordStart b = true
      · have part : isWordPart b = true := word_part_of_start word
        have taken : spelled text .identifier i _ = _ := spelled_taken parts
        rw [if_pos word, if_pos word, skip_run isAsciiKind_wordPart h,
          List.takeWhile_cons_of_pos part]
        simp only [Option.bind_some, taken]
        rfl
      rw [if_neg word, if_neg word]
      exact unexpectedAt_char h
  · rw [tokenAt_beyond h hb beyond beyond', scan_beyond beyond']
    rfl

theorem spansFrom_fault {b : Char} {fault : Fault} (hb : byte? text i = some b)
    (blank : isBlank b = false) (ht : tokenAt text i = some (.error fault)) :
    spansFrom text i = some (.error (fault.at i)) := by
  rw [spansFrom, if_pos (byte?_lt hb), hb]
  simp only [blank, Bool.false_eq_true, if_false]
  split <;> rename_i he <;> cases ht.symm.trans he
  rfl

theorem spansFrom_found {b : Char} {token : Token} {stop : Nat} (hb : byte? text i = some b)
    (blank : isBlank b = false) (ht : tokenAt text i = some (.ok (token, stop))) :
    spansFrom text i = (spansFrom text stop).map (Except.map (⟨token, i⟩ :: ·)) := by
  rw [spansFrom, if_pos (byte?_lt hb), hb]
  simp only [blank, Bool.false_eq_true, if_false]
  split <;> rename_i he <;> cases ht.symm.trans he
  rfl

theorem spansFrom_input (h : StandsAt text i input) :
    spansFrom text i = some (SieveRules.spansFrom i input) := by
  induction hn : input.length using Nat.strongRecOn generalizing i input with
  | ind n ih =>
    cases input with
    | nil =>
      rw [spansFrom, if_neg h.not_lt, SieveRules.spansFrom]
    | cons c rest =>
      obtain ⟨b, hb, looks⟩ := h.byte
      have kind := looks.kind isAsciiKind_blank
      by_cases hc : isBlank c = true
      · have one := utf8Size_of_ascii (ascii_of_blank hc)
        rw [spansFrom, if_pos h.lt, hb, SieveRules.spansFrom, if_pos hc]
        simp only
        rw [if_pos (kind.trans hc), ← one]
        exact ih rest.length (by rw [← hn]; exact Nat.lt_succ_self _) h.next rfl
      · have blank := Bool.eq_false_iff.mpr hc
        have token := tokenAt_scan h
        cases hs : Token.scan c rest with
        | error fault =>
          rw [hs] at token
          rw [spansFrom_fault hb (kind.trans blank) token, spansFrom_unscanned blank hs]
        | ok found =>
          have shorter := Token.scan_length hs
          rw [hs] at token
          rw [← Token.scan_split hs] at h
          rw [spansFrom_found hb (kind.trans blank) token, spansFrom_scanned blank hs,
            ih found.rest.length (by rw [← hn]; exact shorter) h.behind rfl]
          rfl

/-- Stepping through the bytes of a text, every byte and every piece of text that is asked for is
there, and the tokens are those of its characters. -/
theorem tokenize_eq (text : String) : tokenize text = some (SieveRules.tokenize text) :=
  spansFrom_input (.start text)

end ByteLexer

end SieveRules
