import SieveRules.Proofs.Lexing
import SieveRules.Token.Bytes
/-!
The bytes of a text and its characters. An index is described by the characters that stand behind
it; where some do, there is a byte, and text is cut out between such indices. Bytes within a
character beyond ASCII are of no kind that a token is told by, so they are stepped over like the
character.
-/

namespace SieveRules

open Text

theorem size_eq_length (cs : List Char) : size cs = (cs.flatMap String.utf8EncodeChar).length := by
  induction cs with
  | nil => rfl
  | cons c cs ih => rw [size_cons, List.flatMap_cons, List.length_append, ih,
      String.length_utf8EncodeChar]

theorem bytes_toList (text : String) :
    text.toByteArray.data.toList = text.toList.flatMap String.utf8EncodeChar := by
  have encoded : text.toByteArray = text.toList.utf8Encode := by
    rw [← String.toByteArray_ofList, String.ofList_toList]
  rw [encoded, List.utf8Encode, List.toList_data_toByteArray]

theorem utf8ByteSize_eq (text : String) : text.utf8ByteSize = size text.toList := by
  have bytes := congrArg List.length (bytes_toList text)
  rw [← size_eq_length] at bytes
  exact bytes

theorem size_ofList (a : List Char) : (String.ofList a).utf8ByteSize = size a := by
  rw [utf8ByteSize_eq, String.toList_ofList]

/-- A byte of a character looks like it: it is the character, or both are beyond ASCII. -/
def LooksLike (b c : Char) : Prop :=
  b = c ∧ c.utf8Size = 1 ∨ 128 ≤ b.toNat ∧ 128 ≤ c.toNat

theorem looks_like_of_mem {c : Char} {byte : UInt8} (h : byte ∈ String.utf8EncodeChar c) :
    LooksLike (Char.ofUInt8 byte) c := by
  have number : (Char.ofUInt8 byte).toNat = byte.toNat := rfl
  by_cases small : c.utf8Size = 1
  · have short : c.val ≤ 127 := Char.utf8Size_eq_one_iff.mp small
    rw [String.utf8EncodeChar_eq_singleton small, List.mem_singleton] at h
    refine .inl ⟨?_, small⟩
    apply Char.toNat_inj.mp
    rw [number, h]
    have := UInt32.le_iff_toNat_le.mp short
    exact Nat.mod_eq_of_lt (by have : (127 : UInt32).toNat = 127 := rfl; omega)
  · have long : ¬ c.val.toNat ≤ 127 := by
      intro hc
      exact small (Char.utf8Size_eq_one_iff.mpr (UInt32.le_iff_toNat_le.mpr hc))
    have beyond : 128 ≤ c.toNat := by
      change 128 ≤ c.val.toNat
      omega
    refine .inr ⟨?_, beyond⟩
    rw [number]
    unfold String.utf8EncodeChar at h
    simp only [if_neg long] at h
    split at h
    · simp only [List.mem_cons, List.not_mem_nil, or_false] at h
      rcases h with rfl | rfl <;> rw [UInt8.toNat_ofNat'] <;> omega
    · split at h
      · simp only [List.mem_cons, List.not_mem_nil, or_false] at h
        rcases h with rfl | rfl | rfl <;> rw [UInt8.toNat_ofNat'] <;> omega
      · simp only [List.mem_cons, List.not_mem_nil, or_false] at h
        rcases h with rfl | rfl | rfl | rfl <;> rw [UInt8.toNat_ofNat'] <;> omega

/-- No character beyond ASCII is of the kind, or all are. -/
def IsAsciiKind (kind : Char → Bool) : Prop :=
  ∀ c d : Char, 128 ≤ c.toNat → 128 ≤ d.toNat → kind c = kind d

theorem LooksLike.kind {b c : Char} (h : LooksLike b c) {kind : Char → Bool}
    (hk : IsAsciiKind kind) : kind b = kind c := by
  rcases h with ⟨rfl, -⟩ | ⟨hb, hc⟩
  · rfl
  · exact hk b c hb hc

theorem LooksLike.eq_iff {b c d : Char} (h : LooksLike b c) (hd : d.toNat < 128) :
    b = d ↔ c = d := by
  rcases h with ⟨rfl, -⟩ | ⟨hb, hc⟩
  · rfl
  · constructor
    · rintro rfl
      omega
    · rintro rfl
      omega

theorem ascii_of_wordPart {c : Char} (h : isWordPart c = true) : c.toNat < 128 := by
  simp only [isWordPart, isWordStart, isDigit, Bool.or_eq_true, Bool.and_eq_true, decide_eq_true_eq,
    Char.le_def, UInt32.le_iff_toNat_le] at h
  change c.val.toNat < 128
  have : 'z'.val.toNat = 122 := rfl
  have : 'Z'.val.toNat = 90 := rfl
  have : '9'.val.toNat = 57 := rfl
  rcases h with ((h | h) | rfl) | h
  · omega
  · omega
  · decide
  · omega

theorem ascii_of_blank {c : Char} (h : isBlank c = true) : c.toNat < 128 := by
  simp only [isBlank, Bool.or_eq_true, decide_eq_true_eq] at h
  rcases h with (((rfl | rfl) | rfl) | rfl) | rfl <;> decide

theorem isAsciiKind_of {kind : Char → Bool} (h : ∀ c, kind c = true → c.toNat < 128) :
    IsAsciiKind kind := by
  have none : ∀ c : Char, 128 ≤ c.toNat → kind c = false := by
    intro c hc
    rw [Bool.eq_false_iff]
    exact fun hk => absurd (h c hk) (by omega)
  intro c d hc hd
  rw [none c hc, none d hd]

theorem isAsciiKind_wordPart : IsAsciiKind isWordPart :=
  isAsciiKind_of fun _ => ascii_of_wordPart

theorem isAsciiKind_digit : IsAsciiKind isDigit :=
  isAsciiKind_of fun _ h => ascii_of_wordPart (word_part_of_digit h)

theorem isAsciiKind_scale : IsAsciiKind isScale :=
  isAsciiKind_of fun _ h => ascii_of_wordPart (word_part_of_scale h)

theorem isAsciiKind_blank : IsAsciiKind isBlank :=
  isAsciiKind_of fun _ => ascii_of_blank

theorem isAsciiKind_line : IsAsciiKind (· ≠ '\n') := by
  have all : ∀ c : Char, 128 ≤ c.toNat → decide (c ≠ '\n') = true := by
    intro c hc
    rw [decide_eq_true_eq]
    rintro rfl
    exact absurd hc (by decide)
  intro c d hc hd
  exact (all c hc).trans (all d hd).symm

theorem utf8Size_of_ascii {c : Char} (h : c.toNat < 128) : c.utf8Size = 1 :=
  Char.utf8Size_eq_one_iff.mpr (UInt32.le_iff_toNat_le.mpr (Nat.le_of_lt_succ h))

theorem size_of_ascii {cs : List Char} (h : ∀ c ∈ cs, c.toNat < 128) : size cs = cs.length := by
  induction cs with
  | nil => rfl
  | cons c cs ih =>
    rw [size_cons, List.length_cons, ih fun d hd => h d (List.mem_cons_of_mem c hd),
      utf8Size_of_ascii (h c List.mem_cons_self), Nat.add_comm]

theorem length_le_size (cs : List Char) : cs.length ≤ size cs := by
  induction cs with
  | nil => exact Nat.le_refl _
  | cons c cs ih =>
    have := c.utf8Size_pos
    rw [List.length_cons, size_cons]
    omega

theorem toLower_of_not_ascii {c : Char} (h : 128 ≤ c.toNat) : c.toLower = c := by
  refine lower_of_not_word_part (Bool.eq_false_iff.mpr fun part => ?_)
  exact absurd (ascii_of_wordPart part) (by omega)

def StandsAt (text : String) (i : Nat) (input : List Char) : Prop :=
  ∃ before, text.toList = before ++ input ∧ size before = i

namespace StandsAt

variable {text : String} {i : Nat} {c : Char} {input rest : List Char}

theorem start (text : String) : StandsAt text 0 text.toList :=
  ⟨[], rfl, rfl⟩

theorem behind {taken : List Char} (h : StandsAt text i (taken ++ rest)) :
    StandsAt text (i + size taken) rest := by
  obtain ⟨before, whole, rfl⟩ := h
  exact ⟨before ++ taken, by rw [whole, List.append_assoc], size_append before taken⟩

theorem next (h : StandsAt text i (c :: rest)) : StandsAt text (i + c.utf8Size) rest := by
  have further := @behind text i rest [c] h
  rwa [size_cons, size_nil, Nat.add_zero] at further

theorem length (h : StandsAt text i input) : i + size input = text.utf8ByteSize := by
  obtain ⟨before, whole, rfl⟩ := h
  rw [utf8ByteSize_eq, whole, size_append]

theorem byte_within (h : StandsAt text i (c :: rest)) {k : Nat} (hk : k < c.utf8Size) :
    ∃ b, byte? text (i + k) = some b ∧ LooksLike b c := by
  obtain ⟨before, whole, rfl⟩ := h
  have short : k < (String.utf8EncodeChar c).length := by rwa [String.length_utf8EncodeChar]
  refine ⟨Char.ofUInt8 (String.utf8EncodeChar c)[k], ?_, looks_like_of_mem (List.getElem_mem short)⟩
  rw [byte?, ← Array.getElem?_toList, bytes_toList, whole, List.flatMap_append, size_eq_length,
    List.getElem?_append_right (Nat.le_add_right _ _), Nat.add_sub_cancel_left, List.flatMap_cons,
    List.getElem?_append_left short, List.getElem?_eq_getElem short]
  rfl

theorem byte (h : StandsAt text i (c :: rest)) : ∃ b, byte? text i = some b ∧ LooksLike b c :=
  h.byte_within (k := 0) c.utf8Size_pos

theorem lt (h : StandsAt text i (c :: rest)) : i < text.utf8ByteSize := by
  have whole := h.length
  have := c.utf8Size_pos
  rw [size_cons] at whole
  omega

theorem not_lt (h : StandsAt text i []) : ¬ i < text.utf8ByteSize := by
  have whole := h.length
  rw [size_nil] at whole
  omega

theorem valid (h : StandsAt text i input) : (⟨i⟩ : String.Pos.Raw).IsValid text := by
  obtain ⟨before, whole, rfl⟩ := h
  have parts : text = .ofList before ++ .ofList input := by
    rw [← String.toList_inj]
    simp [whole]
  exact String.Pos.Raw.isValid_iff_exists_append.mpr
    ⟨.ofList before, .ofList input, parts, congrArg String.Pos.Raw.mk (size_ofList before).symm⟩

theorem slice {taken : List Char} (h : StandsAt text i (taken ++ rest)) :
    slice? text i (i + size taken) = some (.ofList taken) := by
  rw [slice?, dif_pos ⟨Nat.le_add_right _ _, h.valid, h.behind.valid⟩]
  obtain ⟨before, whole, rfl⟩ := h
  have parts : text = .ofList before ++ .ofList taken ++ .ofList rest := by
    rw [← String.toList_inj]
    simp [whole]
  refine congrArg some (String.toByteArray_inj.mp ?_)
  rw [String.toByteArray_extract]
  simp only [parts, String.toByteArray_append]
  rw [ByteArray.append_assoc, ← size_ofList before, ← size_ofList taken]
  exact (ByteArray.extract_append_size_add (i := 0)).trans (ByteArray.extract_append_eq_left rfl)

theorem slice_end (h : StandsAt text i input) :
    slice? text i text.utf8ByteSize = some (.ofList input) := by
  have whole : StandsAt text i (input ++ []) := by rwa [List.append_nil]
  have cut := whole.slice
  rwa [h.length] at cut

theorem ascii {d : Char} (hd : d.utf8Size = 1) (h : StandsAt text i (d :: rest)) :
    StandsAt text (i + 1) rest :=
  hd ▸ h.next

end StandsAt

namespace ByteLexer

variable {text : String} {i : Nat} {c : Char} {input rest : List Char} {kind : Char → Bool}

theorem skip_next (hk : IsAsciiKind kind) (h : StandsAt text i (c :: rest)) (hc : kind c = true) :
    skip text kind i = skip text kind (i + c.utf8Size) := by
  have steps : ∀ n, n ≤ c.utf8Size → skip text kind i = skip text kind (i + n) := by
    intro n hn
    induction n with
    | zero => rfl
    | succ n ih =>
      obtain ⟨b, hb, looks⟩ := h.byte_within hn
      rw [ih (Nat.le_of_succ_le hn), skip, if_pos (byte?_lt hb), hb]
      exact if_pos ((looks.kind hk).trans hc)
  exact steps _ (Nat.le_refl _)

theorem skip_run (hk : IsAsciiKind kind) (h : StandsAt text i input) :
    skip text kind i = some (i + size (input.takeWhile kind)) := by
  induction input generalizing i with
  | nil => rw [skip, if_neg h.not_lt]; rfl
  | cons c rest ih =>
    by_cases hc : kind c = true
    · rw [skip_next hk h hc, ih h.next, List.takeWhile_cons_of_pos hc, size_cons, Nat.add_assoc]
    · obtain ⟨b, hb, looks⟩ := h.byte
      rw [skip, if_pos h.lt, hb, List.takeWhile_cons_of_neg hc]
      exact if_neg (looks.kind hk ▸ hc)

end ByteLexer

end SieveRules
