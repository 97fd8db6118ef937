import SieveRules.Proofs.Spacing
/-!
The case of letters. Identifiers, tags and the introducer of multi-line strings may be written in
letters of either case: where a text that reads changes the case of letters in these only, it reads
as the same tokens in the same places, but for the spelling of identifiers. No class of characters
that tokens are told by tells capitals from small letters, so what a scan stops at stays.
-/

namespace SieveRules

open Text

def CaseBlind {β : Type} (f : Char → β) : Prop :=
  ∀ c, f c.toLower = f c

section

variable {β : Type} {f : Char → β}

theorem CaseBlind.of_capitals
    (h : ∀ n < 26, f (Char.ofNat (65 + n)).toLower = f (Char.ofNat (65 + n))) : CaseBlind f := by
  intro c
  by_cases capital : c.val ≥ 'A'.val ∧ c.val ≤ 'Z'.val
  · have low := UInt32.le_iff_toNat_le.mp capital.1
    have high := UInt32.le_iff_toNat_le.mp capital.2
    have numbered : c = Char.ofNat (65 + (c.toNat - 65)) := by
      have : 65 ≤ c.toNat := low
      rw [Nat.add_sub_cancel' this, Char.ofNat_toNat]
    rw [numbered]
    refine h _ ?_
    have : c.toNat ≤ 90 := high
    omega
  · have same : c.toLower = c := by
      unfold Char.toLower
      exact dif_neg capital
    rw [same]

theorem CaseBlind.eq (h : CaseBlind f) {c d : Char} (hc : d.toLower = c.toLower) : f d = f c :=
  (h d).symm.trans ((congrArg f hc).trans (h c))

end

theorem caseBlind_wordPart : CaseBlind isWordPart := .of_capitals (by decide)

theorem caseBlind_wordStart : CaseBlind isWordStart := .of_capitals (by decide)

theorem caseBlind_digit : CaseBlind isDigit := .of_capitals (by decide)

theorem caseBlind_scale : CaseBlind isScale := .of_capitals (by decide)

theorem caseBlind_blank : CaseBlind isBlank := .of_capitals (by decide)

theorem caseBlind_line : CaseBlind fun c => decide (c ≠ '\n') := .of_capitals (by decide)

theorem caseBlind_colon : CaseBlind fun c => decide (c = ':') := .of_capitals (by decide)

theorem caseBlind_size : CaseBlind Char.utf8Size := .of_capitals (by decide)

theorem caseBlind_lower : CaseBlind lower := .of_capitals (by decide)

def Alike (text other : List Char) : Prop :=
  other.map Char.toLower = text.map Char.toLower

namespace Alike

variable {text other : List Char}

theorem map_eq {β : Type} {f : Char → β} (h : Alike text other) (hf : CaseBlind f) :
    other.map f = text.map f := by
  have folded : ∀ cs : List Char, cs.map f = (cs.map Char.toLower).map f := by
    intro cs
    rw [List.map_map]
    exact List.map_congr_left fun c _ => (hf c).symm
  rw [folded, h, ← folded]

theorem all (h : Alike text other) {kind : Char → Bool} (hk : CaseBlind kind) :
    other.all kind = text.all kind := by
  have same := congrArg (List.all · id) (h.map_eq hk)
  simpa [List.all_map] using same

theorem no_newline (h : Alike text other) (ht : ∀ c ∈ text, c ≠ '\n') : ∀ d ∈ other, d ≠ '\n' := by
  have same := h.all caseBlind_line
  rw [List.all_eq_true.mpr fun c hc => decide_eq_true (ht c hc)] at same
  exact fun d hd => of_decide_eq_true (List.all_eq_true.mp same d hd)

theorem head (h : Alike text other) {kind : Char → Bool} (hk : CaseBlind kind)
    (ht : ∀ c ∈ text.head?, kind c = false) : ∀ d ∈ other.head?, kind d = false := by
  have same := congrArg List.head? (h.map_eq hk)
  rw [List.head?_map, List.head?_map] at same
  intro d hd
  rw [Option.mem_def.mp hd, Option.map_some] at same
  obtain ⟨c, hc, he⟩ := Option.map_eq_some_iff.mp same.symm
  rw [← he, ht c hc]

theorem size_eq (h : Alike text other) : size other = size text := by
  have sum : ∀ cs, size cs = (cs.map Char.utf8Size).sum := by
    intro cs
    induction cs with
    | nil => rfl
    | cons c cs ih => rw [size_cons, ih, List.map_cons, List.sum_cons]
  rw [sum, sum, h.map_eq caseBlind_size]

theorem nil_iff : Alike [] other ↔ other = [] := by
  simp [Alike]

theorem cons_iff {c : Char} :
    Alike (c :: text) other ↔
      ∃ d tail, other = d :: tail ∧ d.toLower = c.toLower ∧ Alike text tail := by
  simp [Alike, List.map_eq_cons_iff]

theorem append {more behind : List Char} (h : Alike text other) (hm : Alike more behind) :
    Alike (text ++ more) (other ++ behind) := by
  rw [Alike, List.map_append, List.map_append, h, hm]

theorem opens (h : Alike text other) : Token.opensMultiline other = Token.opensMultiline text := by
  rw [Token.opensMultiline, Token.opensMultiline, List.map_take, List.map_take, h]

theorem lowerCase_eq (h : Alike text other) :
    lowerCase (.ofList other) = lowerCase (.ofList text) := by
  rw [lowerCase, lowerCase, String.toList_ofList, String.toList_ofList, h.map_eq caseBlind_lower]

theorem toLower_eq (h : Alike text other) :
    (String.ofList other).toLower = (String.ofList text).toLower := by
  rw [← String.toList_inj, toList_toLower, toList_toLower, String.toList_ofList,
    String.toList_ofList]
  exact h

theorem refl (text : List Char) : Alike text text := rfl

theorem run {kind : Char → Bool} (hk : CaseBlind kind) {input taken behind : List Char}
    (ht : Alike (input.takeWhile kind) taken) (hb : Alike (input.dropWhile kind) behind) :
    (taken ++ behind).takeWhile kind = taken ∧ (taken ++ behind).dropWhile kind = behind := by
  have inside : taken.all kind = true := by
    rw [ht.all hk]
    exact List.all_takeWhile
  have stop := hb.head hk (dropWhile_stops kind input)
  exact ⟨takeWhile_run inside stop, dropWhile_run inside stop⟩

end Alike

/-- How many bytes from its start on a token is spelled with a word whose case says nothing: an
identifier and a tag to their end, a multi-line string over its introducer. -/
def Token.lettering : Token → Nat
  | tag name | identifier name => name.utf8ByteSize
  | multiline _ => "text:".utf8ByteSize
  | _ => 0

def Lettered (spans : List Span) (place : Nat) : Prop :=
  ∃ span ∈ spans, span.offset ≤ place ∧ place < span.offset + span.token.lettering

instance (spans : List Span) (place : Nat) : Decidable (Lettered spans place) :=
  inferInstanceAs (Decidable (∃ span ∈ spans, _ ∧ _))

/-- The second text is the first, which starts at a byte, but for the case of letters in the words
of its tokens. -/
def Recased (spans : List Span) : Nat → List Char → List Char → Prop
  | _, [], [] => True
  | offset, c :: text, d :: other =>
    (d = c ∨ d.toLower = c.toLower ∧ Lettered spans offset) ∧
      Recased spans (offset + c.utf8Size) text other
  | _, _, _ => False

instance decidableRecased (spans : List Span) :
    (offset : Nat) → (text other : List Char) → Decidable (Recased spans offset text other)
  | _, [], [] => .isTrue trivial
  | offset, c :: text, d :: other =>
    have := decidableRecased spans (offset + c.utf8Size) text other
    inferInstanceAs (Decidable ((d = c ∨ d.toLower = c.toLower ∧ Lettered spans offset) ∧
      Recased spans (offset + c.utf8Size) text other))
  | _, [], _ :: _ => .isFalse id
  | _, _ :: _, [] => .isFalse id

namespace Recased

variable {spans : List Span} {offset : Nat} {c : Char} {text more other : List Char}

theorem cons (h : Recased spans offset (c :: text) other) :
    ∃ d tail, other = d :: tail ∧ (d = c ∨ d.toLower = c.toLower ∧ Lettered spans offset) ∧
      Recased spans (offset + c.utf8Size) text tail := by
  cases other with
  | nil => exact h.elim
  | cons d tail => exact ⟨d, tail, rfl, h⟩

theorem alike (h : Recased spans offset text other) : Alike text other := by
  induction text generalizing offset other with
  | nil =>
    cases other with
    | nil => rfl
    | cons d tail => exact h.elim
  | cons c text ih =>
    obtain ⟨d, tail, rfl, letter, later⟩ := h.cons
    have same : d.toLower = c.toLower := by
      rcases letter with rfl | ⟨same, -⟩
      · rfl
      · exact same
    exact Alike.cons_iff.mpr ⟨d, tail, rfl, same, ih later⟩

theorem split (h : Recased spans offset (text ++ more) other) :
    ∃ first behind, other = first ++ behind ∧ Recased spans offset text first ∧
      Recased spans (offset + size text) more behind := by
  induction text generalizing offset other with
  | nil => exact ⟨[], other, rfl, trivial, h⟩
  | cons c text ih =>
    obtain ⟨d, tail, rfl, letter, later⟩ := cons h
    obtain ⟨first, behind, rfl, inside, outside⟩ := ih later
    rw [Nat.add_assoc] at outside
    exact ⟨d :: first, behind, rfl, ⟨letter, inside⟩, outside⟩

theorem same (h : Recased spans offset text other)
    (hs : ∀ place, offset ≤ place → place < offset + size text → ¬ Lettered spans place) :
    other = text := by
  induction text generalizing offset other with
  | nil => exact Alike.nil_iff.mp h.alike
  | cons c text ih =>
    obtain ⟨d, tail, rfl, letter, later⟩ := h.cons
    have some := c.utf8Size_pos
    rw [size_cons] at hs
    have first : d = c := letter.resolve_right fun inside =>
      hs offset (Nat.le_refl _) (by omega) inside.2
    have rest : tail = text := ih later fun place low high => hs place (by omega) (by omega)
    rw [first, rest]

theorem narrow {fewer : List Span} (h : Recased spans offset text other)
    (hs : ∀ place, offset ≤ place → Lettered spans place → Lettered fewer place) :
    Recased fewer offset text other := by
  induction text generalizing offset other with
  | nil =>
    cases other with
    | nil => trivial
    | cons d tail => exact h.elim
  | cons c text ih =>
    obtain ⟨d, tail, rfl, letter, later⟩ := h.cons
    refine ⟨letter.imp_right fun inside => ⟨inside.1, hs offset (Nat.le_refl _) inside.2⟩, ?_⟩
    exact ih later fun place low => hs place (by omega)

end Recased

/-- The token with a word in small letters, so that its case says nothing. -/
def Token.folded : Token → Token
  | identifier name => identifier name.toLower
  | token => token

def Span.folded (span : Span) : Span :=
  ⟨span.token.folded, span.offset⟩

namespace Token

variable {c : Char} {input : List Char} {found : Scanned Token}

/-- Small letters take as many bytes as capitals do. The Kelvin sign is no letter of ASCII. -/
theorem size_lower {text : List Char} (h : ∀ c ∈ text, c.toNat < 128) :
    size (text.map lower) = size text := by
  induction text with
  | nil => rfl
  | cons c text ih =>
    obtain ⟨ascii, later⟩ := List.forall_mem_cons.mp h
    have plain : c ≠ '\u212a' := by
      rintro rfl
      exact absurd ascii (by decide)
    rw [List.map_cons, size_cons, size_cons, ih later, lower, if_neg plain, caseBlind_size c]

theorem punctuation_lettering {token : Token} (h : punctuation? c = some token) :
    token.lettering = 0 := by
  unfold punctuation? at h
  repeat' split at h
  all_goals cases h
  all_goals rfl

theorem multiline?_respelled {word more : List Char} {s : Scanned (List Char)}
    (plain : ∀ c ∈ word, c ≠ '\n') (h : multiline? (word ++ more) = some s) :
    ∃ lines, s.text = word ++ lines ∧ ∀ other, (∀ c ∈ other, c ≠ '\n') →
      multiline? (other ++ more) = some ⟨s.value, other ++ lines, s.rest⟩ := by
  rw [ByteLexer.multiline?_introduced plain] at h
  split at h
  · cases h
  · rename_i newline body hd
    obtain ⟨s', hs, rfl⟩ := Option.map_eq_some_iff.mp h
    refine ⟨more.takeWhile (· ≠ '\n') ++ newline :: s'.text, by simp [Scanned.push], ?_⟩
    intro other plain'
    rw [ByteLexer.multiline?_introduced plain']
    simp only [hd, hs, Option.map_some, Scanned.push]
    simp

theorem Reads.lettering_le (h : Reads c input found) :
    found.value.lettering ≤ size found.text := by
  cases h with
  | punctuation hp =>
    rw [punctuation_lettering hp]
    exact Nat.zero_le _
  | comment => exact Nat.zero_le _
  | blockComment => exact Nat.zero_le _
  | quoted => exact Nat.zero_le _
  | multiline opens hm =>
    obtain ⟨word, more, whole, five, plain, -⟩ := ByteLexer.introducer opens
    rw [whole] at hm
    obtain ⟨lines, text, -⟩ := multiline?_respelled plain hm
    change 5 ≤ size _
    rw [text, size_append, five]
    exact Nat.le_add_right _ _
  | tag =>
    have ascii : ∀ c ∈ ':' :: input.takeWhile isWordPart, c.toNat < 128 := by
      refine List.forall_mem_cons.mpr ⟨by decide, fun c hc => ?_⟩
      exact ascii_of_wordPart (List.all_eq_true.mp List.all_takeWhile c hc)
    change (lowerCase _).utf8ByteSize ≤ _
    rw [lowerCase, size_ofList, String.toList_ofList]
    exact Nat.le_of_eq (size_lower ascii)
  | number =>
    rw [ByteLexer.scanNumber_value]
    exact Nat.zero_le _
  | word => exact Nat.le_of_eq (size_ofList _)

theorem scanNumber_alike {behind : List Char} (h : Alike (scanNumber input).rest behind) :
    scanNumber ((scanNumber input).text ++ behind) = (scanNumber input).cut behind := by
  have digits : ∀ {behind}, Alike (input.dropWhile isDigit) behind → _ :=
    fun hb => Alike.run caseBlind_digit (.refl _) hb
  unfold scanNumber at h ⊢
  cases hd : input.dropWhile isDigit with
  | nil =>
    simp only [hd] at h digits ⊢
    obtain ⟨run, stop⟩ := digits h
    obtain rfl := Alike.nil_iff.mp h
    simp only [run, stop]
    rfl
  | cons c more =>
    by_cases scale : isScale c = true
    · simp only [hd, scale, if_true, List.append_assoc, List.singleton_append] at h digits ⊢
      obtain ⟨run, stop⟩ := digits (Alike.cons_iff.mpr ⟨c, behind, rfl, rfl, h⟩)
      simp only [run, stop, scale, if_true]
      rfl
    · simp only [hd, scale, if_false, Bool.false_eq_true] at h digits ⊢
      obtain ⟨run, stop⟩ := digits h
      obtain ⟨d, tail, rfl, same, -⟩ := Alike.cons_iff.mp h
      have other : ¬ isScale d = true := by rwa [caseBlind_scale.eq same]
      simp only [run, stop, other, if_false, Bool.false_eq_true]
      rfl

theorem multiline?_alike {s : Scanned (List Char)} {behind : List Char}
    (h : multiline? input = some s) (hb : Alike s.rest behind) :
    multiline? (s.text ++ behind) = some (s.cut behind) := by
  by_cases some : s.rest = []
  · rw [some] at hb
    rw [Alike.nil_iff.mp hb]
    exact multiline?_cut h List.nil_prefix
  · exact multiline?_instead h some behind

section

variable {offset : Nat} {later : List Span} {text other behind : List Char} {token : Token}

theorem recased_behind_letters {letters : List Char}
    (h : Recased (⟨token, offset⟩ :: later) offset (letters ++ text) other)
    (hl : token.lettering ≤ size letters)
    (hs : ∀ span ∈ later, offset + size (letters ++ text) ≤ span.offset) :
    ∃ word, other = word ++ text ∧ Alike letters word := by
  obtain ⟨word, tail, rfl, inside, outside⟩ := h.split
  refine ⟨word, ?_, inside.alike⟩
  rw [outside.same]
  rintro place low high ⟨span, hspan, start, stop⟩
  rcases List.mem_cons.mp hspan with rfl | behind
  · change place < offset + token.lettering at stop
    omega
  · have := hs span behind
    rw [size_append] at this
    omega

theorem recased_plain (h : Recased (⟨token, offset⟩ :: later) offset text other)
    (hl : token.lettering = 0) (hs : ∀ span ∈ later, offset + size text ≤ span.offset) :
    other = text := by
  have whole : Recased (⟨token, offset⟩ :: later) offset ([] ++ text) other := h
  obtain ⟨word, rfl, alike⟩ := recased_behind_letters whole (Nat.le_of_eq hl) hs
  rw [Alike.nil_iff.mp alike, List.nil_append]

theorem multiline?_recased {s : Scanned (List Char)} {value : String}
    (opens : opensMultiline input = true) (hm : multiline? input = some s)
    (ht : Recased (⟨.multiline value, offset⟩ :: later) offset s.text other)
    (hs : ∀ span ∈ later, offset + size s.text ≤ span.offset) (hr : Alike s.rest behind) :
    opensMultiline (other ++ behind) = true ∧
      multiline? (other ++ behind) = some ⟨s.value, other, behind⟩ := by
  have spelled := multiline?_opens opens hm behind
  have read := multiline?_alike hm hr
  obtain ⟨word, more, rfl, five, plain, -⟩ := ByteLexer.introducer opens
  obtain ⟨lines, text, -⟩ := multiline?_respelled plain hm
  rw [text] at ht hs
  rw [text, List.append_assoc] at spelled read
  obtain ⟨word', rfl, alike⟩ := recased_behind_letters ht (Nat.le_of_eq five.symm) hs
  obtain ⟨lines', text', respelled⟩ := multiline?_respelled plain read
  obtain rfl : lines = lines' := by
    rw [Scanned.cut, text] at text'
    exact List.append_cancel_left text'
  rw [List.append_assoc]
  exact ⟨(alike.append (.refl _)).opens.trans spelled, respelled word' (alike.no_newline plain)⟩

/-- The token that starts a text is the same, but for the spelling of an identifier, where the case
of letters changes in its word and anywhere behind it. -/
theorem Reads.recased (h : Reads c input found)
    (ht : Recased (⟨found.value, offset⟩ :: later) offset found.text other)
    (hs : ∀ span ∈ later, offset + size found.text ≤ span.offset) (hr : Alike found.rest behind) :
    ∃ d tail value, other = d :: tail ∧ value.folded = found.value.folded ∧
      Reads d (tail ++ behind) ⟨value, other, behind⟩ := by
  cases h with
  | punctuation hp =>
    obtain rfl := recased_plain ht (punctuation_lettering hp) hs
    exact ⟨c, [], _, rfl, rfl, .punctuation hp⟩
  | comment =>
    obtain rfl := recased_plain ht rfl hs
    obtain ⟨run, stop⟩ := Alike.run caseBlind_line (.refl _) hr
    have reads := @Reads.comment (input.takeWhile (· ≠ '\n') ++ behind)
    rw [run, stop] at reads
    exact ⟨'#', _, _, rfl, rfl, reads⟩
  | blockComment hb =>
    obtain rfl := recased_plain ht rfl hs
    exact ⟨'/', _, _, rfl, rfl, .blockComment (commentBody_instead hb behind)⟩
  | quoted hq =>
    obtain rfl := recased_plain ht rfl hs
    exact ⟨'"', _, _, rfl, rfl, .quoted (quotedBody_cut hq behind)⟩
  | multiline opens hm =>
    obtain ⟨text, whole⟩ := scan_text (scan_of_reads (.multiline opens hm))
    have alike := ht.alike
    rw [whole] at alike
    obtain ⟨d, tail, rfl, -, -⟩ := Alike.cons_iff.mp alike
    obtain ⟨spelled, reads⟩ := multiline?_recased opens hm ht hs hr
    exact ⟨d, tail, _, rfl, rfl, .multiline spelled reads⟩
  | @tag input =>
    obtain ⟨d, tail, rfl, colon, alike⟩ := Alike.cons_iff.mp ht.alike
    obtain rfl : d = ':' := by simpa using caseBlind_colon.eq colon
    obtain ⟨run, stop⟩ := Alike.run caseBlind_wordPart alike hr
    have reads := @Reads.tag (tail ++ behind)
    rw [run, stop] at reads
    refine ⟨':', tail, _, rfl, ?_, reads⟩
    exact congrArg Token.tag ht.alike.lowerCase_eq
  | number digit =>
    have value := ByteLexer.scanNumber_value (c :: input)
    have plain : (scanNumber (c :: input)).value.lettering = 0 := by
      rw [value]
      rfl
    obtain rfl := recased_plain ht plain hs
    obtain ⟨text, whole⟩ := scan_text (scan_of_reads (.number digit))
    have reads := @Reads.number c (text ++ behind) digit
    rw [← List.cons_append, ← whole, scanNumber_alike hr] at reads
    exact ⟨c, text, _, whole, rfl, reads⟩
  | word start plain =>
    obtain ⟨d, tail, rfl, first, alike⟩ := Alike.cons_iff.mp ht.alike
    obtain ⟨run, stop⟩ := Alike.run caseBlind_wordPart alike hr
    have start' : isWordStart d = true := (caseBlind_wordStart.eq first).trans start
    -- nor does the word come to open a multi-line string, as this is told without case too
    have plain' : opensMultiline (d :: (tail ++ behind)) = false := by
      have same := (ht.alike.append hr).opens
      rwa [List.cons_append, List.cons_append, List.takeWhile_append_dropWhile, plain] at same
    have reads := Reads.word start' plain'
    rw [run, stop] at reads
    refine ⟨d, tail, _, rfl, ?_, reads⟩
    exact congrArg Token.identifier ht.alike.toLower_eq

end

end Token

theorem spansFrom_behind {offset : Nat} {input : List Char} {spans : List Span}
    (h : spansFrom offset input = .ok spans) : ∀ span ∈ spans, offset ≤ span.offset := by
  fun_induction spansFrom offset input generalizing spans with
  | case1 =>
    cases h
    simp
  | case2 offset c rest hc ih => exact fun span hs => Nat.le_of_add_right_le (ih h span hs)
  | case3 => cases h
  | case4 => cases h
  | case5 offset c rest hc found hs later hr ih =>
    cases h
    refine List.forall_mem_cons.mpr ⟨Nat.le_refl _, ?_⟩
    exact fun span hs => Nat.le_of_add_right_le (ih hr span hs)

/-- A text whose words change their case reads as the same tokens in the same places, but for the
spelling of identifiers. -/
theorem spansFrom_recased {offset : Nat} {input other : List Char} {spans : List Span}
    (h : spansFrom offset input = .ok spans) (hr : Recased spans offset input other) :
    ∃ others, spansFrom offset other = .ok others ∧
      others.map Span.folded = spans.map Span.folded := by
  fun_induction spansFrom offset input generalizing spans other with
  | case1 offset =>
    obtain rfl := Alike.nil_iff.mp hr.alike
    exact ⟨spans, by rw [spansFrom, h], rfl⟩
  | case2 offset c rest hc ih =>
    obtain ⟨d, tail, rfl, letter, later⟩ := hr.cons
    -- every token starts behind the blank
    have first : d = c := by
      refine letter.resolve_right ?_
      rintro ⟨-, span, hspan, start, -⟩
      have := spansFrom_behind h span hspan
      have := c.utf8Size_pos
      omega
    obtain ⟨others, reads, same⟩ := ih h later
    exact ⟨others, by rw [spansFrom, first, if_pos hc, reads], same⟩
  | case3 => cases h
  | case4 => cases h
  | case5 offset c rest hc found hs later ht ih =>
    cases h
    have behind := spansFrom_behind ht
    have reads := Token.reads_of_scan hs
    have whole := hr.alike
    rw [← Token.scan_split hs] at hr
    obtain ⟨first, rest', rfl, inside, outside⟩ := hr.split
    obtain ⟨d, tail, value, rfl, same, reads'⟩ := reads.recased inside behind outside.alike
    -- the word of the token ends before what stands behind the token
    have narrowed : Recased later (offset + size found.text) found.rest rest' := by
      refine outside.narrow ?_
      rintro place low ⟨span, hspan, start, stop⟩
      rcases List.mem_cons.mp hspan with rfl | hspan
      · have := reads.lettering_le
        change place < offset + found.value.lettering at stop
        omega
      · exact ⟨span, hspan, start, stop⟩
    obtain ⟨others, readsRest, sameRest⟩ := ih ht narrowed
    have blank : isBlank d = false := by
      obtain ⟨_, _, he, letter, -⟩ := Alike.cons_iff.mp whole
      cases he
      exact (caseBlind_blank.eq letter).trans (Bool.eq_false_iff.mpr hc)
    refine ⟨⟨value, offset⟩ :: others, ?_, ?_⟩
    · rw [List.cons_append, spansFrom_scanned blank (Token.scan_of_reads reads')]
      simp only [inside.alike.size_eq, readsRest]
      rfl
    · rw [List.map_cons, List.map_cons, sameRest, Span.folded, Span.folded, same]

end SieveRules
