import SieveRules.Proofs.ByteLexing
/-!
The tokens of a text divide it: blanks, and then one piece of text for each token, which reads as
that token alone. A scan that is cut off somewhere behind what it has read reads the same.
-/

namespace SieveRules

open Text

namespace Token

/-- What a scan reads, by the kinds of tokens. -/
inductive Reads : Char → List Char → Scanned Token → Prop
  | punctuation {c : Char} {token : Token} {rest : List Char} (hp : punctuation? c = some token) :
      Reads c rest ⟨token, [c], rest⟩
  | comment {rest : List Char} :
      Reads '#' rest ⟨.comment, '#' :: rest.takeWhile (· ≠ '\n'), rest.dropWhile (· ≠ '\n')⟩
  | blockComment {body : List Char} {s : Scanned (List Char)} (hb : commentBody body = some s) :
      Reads '/' ('*' :: body) ⟨.blockComment, '/' :: '*' :: s.text, s.rest⟩
  | quoted {rest : List Char} {s : Scanned (List Char)} (hq : quotedBody rest = some s) :
      Reads '"' rest ⟨.quoted (.ofList s.value), '"' :: s.text, s.rest⟩
  | multiline {c : Char} {rest : List Char} {s : Scanned (List Char)}
      (opens : opensMultiline (c :: rest) = true) (hm : multiline? (c :: rest) = some s) :
      Reads c rest ⟨.multiline (.ofList s.value), s.text, s.rest⟩
  | tag {rest : List Char} :
      Reads ':' rest ⟨.tag (lowerCase (.ofList (':' :: rest.takeWhile isWordPart))),
        ':' :: rest.takeWhile isWordPart, rest.dropWhile isWordPart⟩
  | number {c : Char} {rest : List Char} (digit : isDigit c = true) :
      Reads c rest (scanNumber (c :: rest))
  | word {c : Char} {rest : List Char} (start : isWordStart c = true)
      (plain : opensMultiline (c :: rest) = false) :
      Reads c rest ⟨.identifier (.ofList (c :: rest.takeWhile isWordPart)),
        c :: rest.takeWhile isWordPart, rest.dropWhile isWordPart⟩

theorem ofBody_ok {make : String → Token} {what : Unclosed} {opening : List Char}
    {body : Option (Scanned (List Char))} {found : Scanned Token}
    (h : ofBody make what opening body = .ok found) :
    ∃ s, body = some s ∧ found = ⟨make (.ofList s.value), opening ++ s.text, s.rest⟩ := by
  cases body with
  | none => cases h
  | some s => exact ⟨s, rfl, (Except.ok.inj h).symm⟩

theorem reads_of_scan {c : Char} {rest : List Char} {found : Scanned Token}
    (h : scan c rest = .ok found) : Reads c rest found := by
  unfold scan at h
  split at h
  · rename_i token hp
    cases h
    exact .punctuation hp
  · split at h
    · rename_i hc
      cases h
      exact hc ▸ .comment
    · split at h
      · rename_i hc
        split at h
        · obtain ⟨s, hb, rfl⟩ := ofBody_ok h
          exact hc ▸ .blockComment hb
        · cases h
      · split at h
        · rename_i hc
          obtain ⟨s, hq, rfl⟩ := ofBody_ok h
          exact hc ▸ .quoted hq
        · split at h
          · rename_i opens
            obtain ⟨s, hm, rfl⟩ := ofBody_ok h
            exact .multiline opens hm
          · rename_i plain
            split at h
            · rename_i hc
              cases h
              subst hc
              exact .tag
            · split at h
              · rename_i digit
                cases h
                exact .number digit
              · split at h
                · rename_i start
                  cases h
                  exact .word start (Bool.eq_false_iff.mpr plain)
                · cases h

theorem scan_of_reads {c : Char} {rest : List Char} {found : Scanned Token}
    (h : Reads c rest found) : scan c rest = .ok found := by
  cases h with
  | punctuation hp => simp [scan, hp]
  | comment => rfl
  | blockComment hb => simp [scan, punctuation?, ofBody, hb]
  | quoted hq => simp [scan, punctuation?, ofBody, hq]
  | multiline opens hm =>
    rcases ByteLexer.opens_letter opens with rfl | rfl <;>
      simp [scan, punctuation?, ofBody, opens, hm]
  | tag =>
    have plain : opensMultiline (':' :: rest) = false := by
      simp [opensMultiline, show ':'.toLower = ':' from rfl]
    simp [scan, punctuation?, plain]
  | number digit =>
    obtain ⟨hp, -, h₁, h₂, h₃, h₄⟩ := word_part_plain (word_part_of_digit digit)
    have plain : opensMultiline (c :: rest) = false := by
      refine Bool.eq_false_iff.mpr fun opens => ?_
      rcases ByteLexer.opens_letter opens with rfl | rfl <;> exact absurd digit (by decide)
    simp [scan, hp, h₁, h₂, h₃, h₄, plain, digit]
  | word start plain =>
    obtain ⟨hp, -, h₁, h₂, h₃, h₄⟩ := word_part_plain (word_part_of_start start)
    simp [scan, hp, h₁, h₂, h₃, h₄, plain, start_not_digit start, start]

theorem scan_ok_iff {c : Char} {rest : List Char} {found : Scanned Token} :
    scan c rest = .ok found ↔ Reads c rest found :=
  ⟨reads_of_scan, scan_of_reads⟩

end Token

def Scanned.cut {α : Type} (s : Scanned α) (rest : List Char) : Scanned α :=
  { s with rest }

theorem Scanned.push_cut (value text rest : List Char) (s : Scanned (List Char)) :
    (s.push value text).cut rest = (s.cut rest).push value text := rfl

namespace Token

variable {input rest : List Char}

theorem quotedBody_cut {s : Scanned (List Char)} (h : quotedBody input = some s)
    (rest : List Char) : quotedBody (s.text ++ rest) = some (s.cut rest) := by
  fun_induction quotedBody input generalizing s with
  | case1 => cases h
  | case2 => cases h
  | case3 c behind ih =>
    obtain ⟨s', hs, rfl⟩ := Option.map_eq_some_iff.mp h
    simp [Scanned.push, quotedBody, ih hs, Scanned.cut]
  | case4 behind =>
    cases h
    rfl
  | case5 c behind alone escaped quote ih =>
    obtain ⟨s', hs, rfl⟩ := Option.map_eq_some_iff.mp h
    have plain : c ≠ '\\' := by
      rintro rfl
      cases behind with
      | nil => exact alone rfl rfl
      | cons d behind => exact escaped d behind rfl rfl
    rw [Scanned.push_cut]
    change quotedBody (c :: (s'.text ++ rest)) = _
    rw [quotedBody, ih hs]
    · rfl
    · exact fun hc _ => plain hc
    · exact fun _ _ hc _ => plain hc
    · exact quote

theorem commentBody_cut {s : Scanned (List Char)} (h : commentBody input = some s)
    (hr : rest <+: s.rest) : commentBody (s.text ++ rest) = some (s.cut rest) := by
  fun_induction commentBody input generalizing s with
  | case1 => cases h
  | case2 behind =>
    cases h
    rfl
  | case3 c behind opens ih =>
    obtain ⟨s', hs, rfl⟩ := Option.map_eq_some_iff.mp h
    have part : s'.text ++ rest <+: behind := by
      rw [← commentBody_split hs]
      exact (List.prefix_append_right_inj _).mpr hr
    rw [Scanned.push_cut]
    change commentBody (c :: (s'.text ++ rest)) = _
    rw [commentBody, ih hs hr]
    · rfl
    · rintro more rfl he
      rw [he] at part
      obtain ⟨further, rfl⟩ := part
      exact opens (more ++ further) rfl rfl

theorem multilineBody_cut {lineStart : Bool} {s : Scanned (List Char)}
    (h : multilineBody lineStart input = some s) (hr : rest <+: s.rest) :
    multilineBody lineStart (s.text ++ rest) = some (s.cut rest) := by
  fun_induction multilineBody lineStart input generalizing s with
  | case1 => cases h
  | case2 =>
    cases h
    rw [List.prefix_nil.mp hr]
    rfl
  | case3 behind =>
    cases h
    rfl
  | case4 behind =>
    cases h
    rfl
  | case5 behind ih =>
    obtain ⟨s', hs, rfl⟩ := Option.map_eq_some_iff.mp h
    simp [Scanned.push, multilineBody, ih hs hr, Scanned.cut]
  | case6 lineStart c behind dot line crlf dots ih =>
    obtain ⟨s', hs, rfl⟩ := Option.map_eq_some_iff.mp h
    have part : s'.text ++ rest <+: behind := by
      rw [← multilineBody_split hs]
      exact (List.prefix_append_right_inj _).mpr hr
    have later := ih hs hr
    rw [Scanned.push_cut]
    change multilineBody lineStart (c :: (s'.text ++ rest)) = _
    rw [multilineBody, later]
    · rfl
    · intro start hc he
      rw [he] at later
      cases later
    · rintro more start hc he
      rw [he] at part
      obtain ⟨further, rfl⟩ := part
      exact line (more ++ further) start hc rfl
    · rintro more start hc he
      rw [he] at part
      obtain ⟨further, rfl⟩ := part
      exact crlf (more ++ further) start hc rfl
    · rintro more start hc he
      rw [he] at part
      obtain ⟨further, rfl⟩ := part
      exact dots (more ++ further) start hc rfl

theorem multiline?_lines {s : Scanned (List Char)} (h : multiline? input = some s) :
    ∃ body line s', multilineBody true body = some s' ∧ s = s'.push [] (line ++ ['\n']) ∧
      ∀ rest, multilineBody true (s'.text ++ rest) = some (s'.cut rest) →
        multiline? (s.text ++ rest) = some (s.cut rest) := by
  unfold multiline? at h
  split at h
  · cases h
  · rename_i newline body hd
    obtain ⟨s', hs, rfl⟩ := Option.map_eq_some_iff.mp h
    obtain rfl := ByteLexer.dropWhile_line hd
    refine ⟨body, input.takeWhile (· ≠ '\n'), s', hs, rfl, ?_⟩
    intro rest hrest
    have stop : ∀ c ∈ ('\n' :: (s'.text ++ rest)).head?, decide (c ≠ '\n') = false := by simp
    have line := List.all_takeWhile (p := fun c => decide (c ≠ '\n')) (l := input)
    have whole : (s'.push [] (input.takeWhile (· ≠ '\n') ++ ['\n'])).text ++ rest =
        input.takeWhile (· ≠ '\n') ++ '\n' :: (s'.text ++ rest) := by
      simp [Scanned.push]
    rw [whole, multiline?, takeWhile_run line stop, dropWhile_run line stop]
    simp only [hrest]
    rfl

theorem multiline?_cut {s : Scanned (List Char)} (h : multiline? input = some s)
    (hr : rest <+: s.rest) : multiline? (s.text ++ rest) = some (s.cut rest) := by
  obtain ⟨body, line, s', hs, rfl, lines⟩ := multiline?_lines h
  exact lines rest (multilineBody_cut hs hr)

/-- A text does not come to open a multi-line string by being cut off. -/
theorem opensMultiline_cut (hr : rest <+: input) (h : opensMultiline input = false) :
    opensMultiline rest = false := by
  rw [opensMultiline, decide_eq_false_iff_not] at h ⊢
  intro opens
  obtain ⟨more, rfl⟩ := hr
  have long : 5 ≤ rest.length := by
    have := congrArg List.length opens
    simp only [List.length_map, List.length_take, List.length_cons, List.length_nil] at this
    omega
  exact h (by rw [List.take_append_of_le_length long, opens])

theorem run_cut {kind : Char → Bool} (hr : rest <+: input.dropWhile kind) :
    (input.takeWhile kind ++ rest).takeWhile kind = input.takeWhile kind ∧
      (input.takeWhile kind ++ rest).dropWhile kind = rest := by
  have run := List.all_takeWhile (p := kind) (l := input)
  have stop : ∀ c ∈ rest.head?, kind c = false := by
    intro c hc
    obtain ⟨more, hm⟩ := hr
    refine dropWhile_stops kind input c ?_
    rw [← hm, List.head?_append, Option.mem_def.mp hc]
    rfl
  exact ⟨takeWhile_run run stop, dropWhile_run run stop⟩

theorem scanNumber_cut (hr : rest <+: (scanNumber input).rest) :
    scanNumber ((scanNumber input).text ++ rest) = (scanNumber input).cut rest := by
  unfold scanNumber at hr ⊢
  cases hd : input.dropWhile isDigit with
  | nil =>
    simp only [hd] at hr
    have digits := run_cut (hd.symm ▸ hr)
    rw [List.prefix_nil.mp hr] at digits ⊢
    simp only [digits.1, digits.2]
    rfl
  | cons c behind =>
    by_cases scale : isScale c = true
    · simp only [hd, scale, if_true] at hr
      have whole : input.takeWhile isDigit ++ [c] ++ rest = input.takeWhile isDigit ++ c :: rest := by
        simp
      have digits := run_cut (hd.symm ▸ (List.prefix_cons_inj c).mpr hr)
      simp only [scale, if_true, whole, digits.1, digits.2]
      rfl
    · simp only [hd, scale, if_false, Bool.false_eq_true] at hr
      have digits := run_cut (hd.symm ▸ hr)
      simp only [scale, if_false, Bool.false_eq_true, digits.1, digits.2]
      cases rest with
      | nil => rfl
      | cons d rest =>
        obtain rfl : d = c := (List.cons_prefix_cons.mp hr).1
        simp [scale, Scanned.cut]

theorem multiline?_opens {s : Scanned (List Char)} (h : opensMultiline input = true)
    (hs : multiline? input = some s) (rest : List Char) :
    opensMultiline (s.text ++ rest) = true := by
  obtain ⟨word, more, rfl, -, plain, opens⟩ := ByteLexer.introducer h
  rw [ByteLexer.multiline?_introduced plain] at hs
  split at hs
  · cases hs
  · obtain ⟨s', -, rfl⟩ := Option.map_eq_some_iff.mp hs
    simp only [Scanned.push, List.append_assoc]
    exact opens _

/-- The token that starts a text is the same where the text is cut off behind it. -/
theorem scan_cut {c : Char} {text : List Char} {found : Scanned Token}
    (h : scan c input = .ok found) (hr : rest <+: found.rest) (ht : found.text = c :: text) :
    scan c (text ++ rest) = .ok (found.cut rest) := by
  rw [scan_ok_iff] at h ⊢
  cases h with
  | punctuation hp =>
    cases ht
    exact .punctuation hp
  | comment =>
    cases ht
    obtain ⟨run, behind⟩ := run_cut hr
    have cut := @Reads.comment (input.takeWhile (· ≠ '\n') ++ rest)
    rwa [run, behind] at cut
  | blockComment hb =>
    cases ht
    exact .blockComment (commentBody_cut hb hr)
  | quoted hq =>
    cases ht
    exact .quoted (quotedBody_cut hq rest)
  | @multiline c input s opens hm =>
    have part : s.text ++ rest = c :: (text ++ rest) := by rw [← List.cons_append, ← ht]
    have opens := multiline?_opens opens hm rest
    have cut := multiline?_cut hm hr
    rw [part] at opens cut
    exact .multiline opens cut
  | tag =>
    cases ht
    obtain ⟨run, behind⟩ := run_cut hr
    have cut := @Reads.tag (input.takeWhile isWordPart ++ rest)
    rwa [run, behind] at cut
  | number digit =>
    have cut := @Reads.number c (text ++ rest) digit
    rwa [← List.cons_append, ← ht, scanNumber_cut hr] at cut
  | word start plain =>
    cases ht
    obtain ⟨run, behind⟩ := run_cut hr
    have whole := List.takeWhile_append_dropWhile (p := isWordPart) (l := input)
    have part : c :: (input.takeWhile isWordPart ++ rest) <+: c :: input := by
      rw [List.prefix_cons_inj]
      conv => rhs; rw [← whole]
      exact (List.prefix_append_right_inj _).mpr hr
    have cut := Reads.word start (opensMultiline_cut part plain)
    rwa [run, behind] at cut

theorem scan_unexpected {c d : Char} (h : scan c input = .error (.unexpected d)) : d = c := by
  have unclosed : ∀ {make what opening} {body : Option (Scanned (List Char))},
      ofBody make what opening body ≠ .error (.unexpected d) := by
    intro make what opening body he
    cases body <;> cases he
  unfold scan at h
  repeat' split at h
  all_goals first | exact absurd h unclosed | cases h
  all_goals rfl

theorem scan_text {c : Char} {found : Scanned Token} (h : scan c input = .ok found) :
    ∃ text, found.text = c :: text := by
  have whole := scan_split h
  cases ht : found.text with
  | nil => exact absurd ht (scan_text_ne_nil h)
  | cons d text =>
    rw [ht, List.cons_append, List.cons.injEq] at whole
    exact ⟨text, by rw [whole.1]⟩

end Token

theorem spansFrom_blanks {offset : Nat} {lead rest : List Char} (h : lead.all isBlank = true) :
    spansFrom offset (lead ++ rest) = spansFrom (offset + size lead) rest := by
  induction lead generalizing offset with
  | nil => rfl
  | cons c lead ih =>
    simp only [List.all_cons, Bool.and_eq_true] at h
    rw [List.cons_append, spansFrom, if_pos h.1, ih h.2, size_cons, Nat.add_assoc]

theorem spansFrom_cut {offset : Nat} {c : Char} {input rest : List Char} {found : Scanned Token}
    (hc : isBlank c = false) (hs : Token.scan c input = .ok found) (hr : rest <+: found.rest) :
    spansFrom offset (found.text ++ rest) =
      (spansFrom (offset + size found.text) rest).map (⟨found.value, offset⟩ :: ·) := by
  obtain ⟨text, ht⟩ := Token.scan_text hs
  rw [ht, List.cons_append, spansFrom_scanned hc (Token.scan_cut hs hr ht), ← ht]
  rfl

/-- Pieces of text from a byte on, one for each span, which read as its token and nothing else. -/
inductive Divides : Nat → List Char → List Span → Prop
  | nil (offset : Nat) : Divides offset [] []
  | piece {offset : Nat} {token : Token} {part rest : List Char} {spans : List Span}
      (alone : spansFrom 0 part = .ok [⟨token, 0⟩])
      (behind : Divides (offset + size part) rest spans) :
      Divides offset (part ++ rest) (⟨token, offset⟩ :: spans)

theorem spansFrom_divides {offset : Nat} {input : List Char} {spans : List Span}
    (h : spansFrom offset input = .ok spans) :
    ∃ lead rest, lead ++ rest = input ∧ lead.all isBlank = true ∧
      Divides (offset + size lead) rest spans := by
  fun_induction spansFrom offset input generalizing spans with
  | case1 offset =>
    cases h
    exact ⟨[], [], rfl, rfl, .nil _⟩
  | case2 offset c rest hc ih =>
    obtain ⟨lead, pieces, rfl, blank, divides⟩ := ih h
    rw [Nat.add_assoc] at divides
    exact ⟨c :: lead, pieces, rfl, by simp [hc, blank], divides⟩
  | case3 => cases h
  | case4 => cases h
  | case5 offset c rest hc found hs spans' hr ih =>
    cases h
    obtain ⟨lead, pieces, behind, blank, divides⟩ := ih hr
    -- the blanks behind the token belong to its piece
    have alone : spansFrom 0 (found.text ++ lead) = .ok [⟨found.value, 0⟩] := by
      have nothing : spansFrom (0 + size found.text) (lead ++ []) = _ := spansFrom_blanks blank
      rw [List.append_nil, spansFrom] at nothing
      rw [spansFrom_cut (Bool.eq_false_iff.mpr hc) hs ⟨pieces, behind⟩, nothing]
      rfl
    rw [Nat.add_assoc, ← size_append] at divides
    refine ⟨[], c :: rest, rfl, rfl, ?_⟩
    rw [← Token.scan_split hs, ← behind, ← List.append_assoc]
    exact .piece alone divides

/-- A text that does not read has a place in it up to which it does, and no token starts there. -/
theorem spansFrom_stops {offset : Nat} {input : List Char} {e : ScriptError}
    (h : spansFrom offset input = .error e) :
    ∃ before c behind fault, before ++ c :: behind = input ∧
      (∃ spans, spansFrom offset before = .ok spans) ∧ Token.scan c behind = .error fault ∧
      e = fault.at (offset + size before) := by
  fun_induction spansFrom offset input with
  | case1 => cases h
  | case2 offset c rest hc ih =>
    obtain ⟨before, d, behind, fault, rfl, ⟨spans, hb⟩, hs, he⟩ := ih h
    refine ⟨c :: before, d, behind, fault, rfl, ⟨spans, ?_⟩, hs, ?_⟩
    · rw [spansFrom, if_pos hc, hb]
    · rw [he, size_cons, Nat.add_assoc]
  | case3 offset c rest hc fault hs =>
    cases h
    exact ⟨[], c, rest, fault, rfl, ⟨[], by rw [spansFrom]⟩, hs, rfl⟩
  | case4 offset c rest hc found hs e' hr ih =>
    cases h
    obtain ⟨before, d, behind, fault, split, ⟨spans, hb⟩, hf, he⟩ := ih hr
    refine ⟨found.text ++ before, d, behind, fault, ?_, ⟨⟨found.value, offset⟩ :: spans, ?_⟩, hf, ?_⟩
    · rw [List.append_assoc, split, Token.scan_split hs]
    · rw [spansFrom_cut (Bool.eq_false_iff.mpr hc) hs ⟨_, split⟩, hb]
      rfl
    · rw [he, size_append, Nat.add_assoc]
  | case5 => cases h

/-- Where the first of the spans starts, or the text ends. -/
def firstOffset (text : String) (spans : List Span) : Nat :=
  (spans.head?.map Span.offset).getD text.utf8ByteSize

/-- The spans divide a text: blanks stand before the first, and what stands between the start of
one and the start of the next, or the end, reads as its token and nothing else. -/
structure Partitions (text : String) (spans : List Span) : Prop where
  increasing : (spans.map Span.offset).Pairwise (· < ·)
  within : ∀ span ∈ spans,
    span.offset < text.utf8ByteSize ∧ (⟨span.offset⟩ : String.Pos.Raw).IsValid text
  blanks : ∃ lead, slice? text 0 (firstOffset text spans) = some lead ∧
    lead.toList.all isBlank = true
  pieces : ∀ k span, spans[k]? = some span → ∃ piece,
    slice? text span.offset (firstOffset text (spans.drop (k + 1))) = some piece ∧
      tokenize piece = .ok [⟨span.token, 0⟩]

/-- The text reads up to an index, and what stands there is reported. -/
structure StopsAt (text : String) (offset : Nat) (e : ScriptError) : Prop where
  within : offset < text.utf8ByteSize ∧ (⟨offset⟩ : String.Pos.Raw).IsValid text
  before : ∃ part spans, slice? text 0 offset = some part ∧ tokenize part = .ok spans
  reported : (∃ what, e = .unterminated what offset) ∨
    ∃ c behind, e = .unexpectedChar c offset ∧
      slice? text offset text.utf8ByteSize = some behind ∧ behind.toList.head? = some c

section

variable {text : String} {offset : Nat} {input : List Char} {spans : List Span}

theorem Divides.first (h : Divides offset input spans) (hs : StandsAt text offset input) :
    firstOffset text spans = offset := by
  cases h with
  | nil => exact hs.length.symm
  | piece alone behind => rfl

theorem piece_starts {token : Token} {part : List Char}
    (h : spansFrom 0 part = .ok [⟨token, 0⟩]) : ∃ c more, part = c :: more := by
  cases part with
  | nil =>
    rw [spansFrom] at h
    cases h
  | cons c more => exact ⟨c, more, rfl⟩

theorem Divides.within (h : Divides offset input spans) (hs : StandsAt text offset input) :
    ∀ span ∈ spans, offset ≤ span.offset ∧
      span.offset < text.utf8ByteSize ∧ (⟨span.offset⟩ : String.Pos.Raw).IsValid text := by
  induction h with
  | nil => simp
  | piece alone behind ih =>
    obtain ⟨c, more, rfl⟩ := piece_starts alone
    intro span hspan
    rcases List.mem_cons.mp hspan with rfl | later
    · exact ⟨Nat.le_refl _, hs.lt, hs.valid⟩
    · obtain ⟨after, inside⟩ := ih hs.behind span later
      exact ⟨Nat.le_of_add_right_le after, inside⟩

theorem Divides.increasing (h : Divides offset input spans) (hs : StandsAt text offset input) :
    (spans.map Span.offset).Pairwise (· < ·) := by
  induction h with
  | nil => exact .nil
  | @piece offset token part rest spans alone behind ih =>
    obtain ⟨c, more, rfl⟩ := piece_starts alone
    refine List.pairwise_cons.mpr ⟨?_, ih hs.behind⟩
    intro later hl
    obtain ⟨span, hspan, rfl⟩ := List.mem_map.mp hl
    have after := (behind.within hs.behind span hspan).1
    have := c.utf8Size_pos
    rw [size_cons] at after
    change offset < span.offset
    omega

theorem Divides.pieces (h : Divides offset input spans) (hs : StandsAt text offset input) :
    ∀ k span, spans[k]? = some span → ∃ piece,
      slice? text span.offset (firstOffset text (spans.drop (k + 1))) = some piece ∧
        tokenize piece = .ok [⟨span.token, 0⟩] := by
  induction h with
  | nil => simp
  | @piece offset token part rest spans alone behind ih =>
    intro k span hspan
    cases k with
    | zero =>
      obtain rfl := Option.some.inj hspan
      refine ⟨.ofList part, ?_, ?_⟩
      · change slice? text offset (firstOffset text spans) = _
        rw [behind.first hs.behind, hs.slice]
      · rw [tokenize, String.toList_ofList, alone]
    | succ k => exact ih hs.behind k span hspan

end

theorem partitions_of_tokenize {text : String} {spans : List Span} (h : tokenize text = .ok spans) :
    Partitions text spans := by
  obtain ⟨lead, rest, whole, blank, divides⟩ := spansFrom_divides h
  have start := StandsAt.start text
  rw [← whole] at start
  have behind := start.behind
  exact {
    increasing := divides.increasing behind
    within := fun span hspan => (divides.within behind span hspan).2
    blanks := ⟨.ofList lead, by rw [divides.first behind, start.slice],
      by rw [String.toList_ofList, blank]⟩
    pieces := divides.pieces behind }

theorem stops_of_tokenize {text : String} {e : ScriptError} (h : tokenize text = .error e) :
    ∃ offset, StopsAt text offset e := by
  obtain ⟨before, c, behind, fault, whole, ⟨spans, reads⟩, stops, rfl⟩ := spansFrom_stops h
  have start := StandsAt.start text
  rw [← whole] at start
  have place := start.behind
  refine ⟨0 + size before, ⟨place.lt, place.valid⟩, ?_, ?_⟩
  · exact ⟨.ofList before, spans, start.slice, by rw [tokenize, String.toList_ofList, reads]⟩
  · cases fault with
    | unterminated what => exact .inl ⟨what, rfl⟩
    | unexpected d =>
      obtain rfl := Token.scan_unexpected stops
      exact .inr ⟨d, .ofList (d :: behind), rfl, place.slice_end, by rw [String.toList_ofList]; rfl⟩

/-- Stepping through the bytes of any text asks for nothing that is not there. The tokens it gives
divide the text, or it gives the place up to which the text reads. -/
theorem tokenize_partitions (text : String) :
    ByteLexer.tokenize text = some (tokenize text) ∧
      match tokenize text with
      | .ok spans => Partitions text spans
      | .error e => ∃ offset, StopsAt text offset e := by
  refine ⟨ByteLexer.tokenize_eq text, ?_⟩
  cases h : tokenize text with
  | ok spans => exact partitions_of_tokenize h
  | error e => exact stops_of_tokenize h

example : (tokenize "/*é*/ t").toOption = some [⟨.blockComment, 0⟩, ⟨.identifier "t", 7⟩] ∧
    (tokenize "t€").toOption = none := by
  decide +kernel

end SieveRules
