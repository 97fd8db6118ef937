import SieveRules.Proofs.Joining
import SieveRules.Proofs.Literals
import SieveRules.Proofs.Partition
/-!
Literals in front of any text. A quotation reads as the string that was quoted, whatever follows it;
a size reads as a number where neither a digit nor a scale follows, and the check of sizes accepts
exactly the texts that read as one number. What follows reads as it does alone, further on.
-/

namespace SieveRules

open Text

/-- The text reads as the token, and what stands behind it as it does alone, with every place moved
by the size of the text. -/
def Leads (text : String) (token : Token) (rest : String) : Prop :=
  tokenize (text ++ rest) = (moved text.utf8ByteSize (tokenize rest)).map (⟨token, 0⟩ :: ·)

section

variable {text rest : String} {token : Token} {c : Char} {tail : List Char}

theorem leads_of_reads (ht : text.toList = c :: tail) (hc : isBlank c = false)
    (h : Token.Reads c (tail ++ rest.toList) ⟨token, text.toList, rest.toList⟩) :
    Leads text token rest := by
  have whole : (text ++ rest).toList = c :: (tail ++ rest.toList) := by simp [ht]
  rw [Leads, tokenize, whole, spansFrom_scanned hc (Token.scan_of_reads h), Nat.add_comm,
    spansFrom_moved, ← utf8ByteSize_eq]
  rfl

theorem Leads.alone (h : Leads text token "") : tokenize text = .ok [⟨token, 0⟩] := by
  have empty : tokenize "" = .ok [] := by
    rw [tokenize, String.toList_empty, spansFrom]
  rw [Leads, String.append_empty, empty] at h
  exact h

end

def substitute (c : Char) (word text : List Char) : List Char :=
  text.flatMap fun d => if d = c then word else [d]

/-- Backslashes are doubled, and then the quotes are put behind one. -/
theorem escape_passes (text : List Char) :
    text.flatMap escape = substitute '"' ['\\', '"'] (substitute '\\' ['\\', '\\'] text) := by
  induction text with
  | nil => rfl
  | cons c text ih =>
    rw [substitute, substitute, List.flatMap_cons, List.flatMap_cons, List.flatMap_append, ih]
    refine congrArg (· ++ _) ?_
    by_cases backslash : c = '\\'
    · subst backslash
      rfl
    · by_cases mark : c = '"'
      · subst mark
        rfl
      · simp [escape, backslash, mark]

/-- A quotation, which is made in two passes over the string, reads as the string in front of any
text. -/
theorem quotation_undone (s rest : String) :
    quote s = "\"" ++
      .ofList (substitute '"' ['\\', '"'] (substitute '\\' ['\\', '\\'] s.toList)) ++ "\"" ∧
    Leads (quote s) (.quoted s) rest := by
  refine ⟨by rw [quote, escape_passes], ?_⟩
  have written : (quote s).toList = '"' :: (s.toList.flatMap escape ++ ['"']) := by simp [quote]
  refine leads_of_reads written rfl ?_
  have reads := Token.Reads.quoted (quotedBody_escaped s.toList rest.toList)
  rw [String.ofList_toList] at reads
  rwa [written, List.append_assoc]

example : (tokenize (quote "\\\"\n" ++ "1")).toOption =
    some [⟨.quoted "\\\"\n", 0⟩, ⟨.number "1", 7⟩] := by
  decide +kernel

theorem digit_not_scale {c : Char} (h : isDigit c = true) : isScale c = false := by
  rw [Bool.eq_false_iff]
  intro scale
  rw [scale_not_digit scale] at h
  cases h

def withoutScale (text : List Char) : List Char :=
  if text.getLast?.any isScale then text.dropLast else text

theorem size_literal_stripped (s : String) :
    isSizeLiteral s = true ↔
      withoutScale s.toList ≠ [] ∧ (withoutScale s.toList).all isDigit = true := by
  constructor
  · intro h
    obtain ⟨c, digits, scale, whole, first, later, hs⟩ := size_literal_parts h
    have stripped : withoutScale s.toList = c :: digits := by
      rw [whole, withoutScale]
      rcases hs with rfl | ⟨d, rfl, hd⟩
      · -- the last character is a digit
        have last : ((c :: digits).getLast?).any isScale = false := by
          rw [Option.any_eq_false]
          intro d hd
          have digit : isDigit d = true := by
            rcases List.mem_cons.mp (List.mem_of_getLast? hd) with rfl | inside
            · exact first
            · exact List.all_eq_true.mp later d inside
          simp [digit_not_scale digit]
        rw [List.append_nil, last, if_neg Bool.false_ne_true]
      · rw [List.getLast?_concat, Option.any_some, if_pos hd, List.dropLast_concat]
    rw [stripped]
    exact ⟨List.cons_ne_nil _ _, by simp [first, later]⟩
  · rintro ⟨some, digits⟩
    rw [withoutScale] at some digits
    split at some <;> rename_i ends
    · rw [if_pos ends] at digits
      obtain ⟨d, hd, scale⟩ := (Option.any_eq_true _ _).mp ends
      obtain ⟨before, whole⟩ := List.getLast?_eq_some_iff.mp hd
      rw [whole, List.dropLast_concat] at some digits
      have literal := size_literal_of_parts some digits (.inr ⟨d, rfl, scale⟩)
      rwa [← whole, String.ofList_toList] at literal
    · rw [if_neg ends] at digits
      have literal := size_literal_of_parts some digits (.inl rfl)
      rwa [List.append_nil, String.ofList_toList] at literal

theorem number_leads {s rest : String} (hs : isSizeLiteral s = true)
    (hr : ∀ c ∈ rest.toList.head?, isDigit c = false ∧ isScale c = false) :
    Leads s (.number s) rest := by
  obtain ⟨c, digits, scale, whole, first, -⟩ := size_literal_parts hs
  rw [List.cons_append] at whole
  have plain : isBlank c = false := (word_part_plain (word_part_of_digit first)).2.1
  have number := scanNumber_literal hs hr
  have reads := @Token.Reads.number c (digits ++ scale ++ rest.toList) first
  rw [← List.cons_append, ← whole, number] at reads
  exact leads_of_reads whole plain reads

theorem size_literal_of_number {s : String} (h : tokenize s = .ok [⟨.number s, 0⟩]) :
    isSizeLiteral s = true :=
  tokenize_literal h (List.mem_singleton.mpr rfl)

theorem size_literal_iff_number (s : String) :
    isSizeLiteral s = true ↔ tokenize s = .ok [⟨.number s, 0⟩] := by
  constructor
  · intro h
    exact (number_leads h (by simp)).alone
  · exact size_literal_of_number

/-- The check of a size, which takes the scale off the end, accepts exactly the texts that read as
one number and refuses all others. Such a text reads as that number in front of any text that goes
on with neither a digit nor a scale. -/
theorem size_check_reads_number (operator : SizeOperator) (s : String) :
    (isSizeLiteral s = true ↔
      withoutScale s.toList ≠ [] ∧ (withoutScale s.toList).all isDigit = true) ∧
    (Condition.size? operator s = .ok (.size operator s) ↔ tokenize s = .ok [⟨.number s, 0⟩]) ∧
    (Condition.size? operator s = .error ⟨s⟩ ↔ tokenize s ≠ .ok [⟨.number s, 0⟩]) ∧
    (Condition.size? operator s = .ok (.size operator s) → ∀ rest : String,
      (∀ c ∈ rest.toList.head?, isDigit c = false ∧ isScale c = false) →
        Leads s (.number s) rest) := by
  have accepted : Condition.size? operator s = .ok (.size operator s) ↔ isSizeLiteral s = true := by
    rw [Condition.size?]
    split <;> simp [*]
  have refused : Condition.size? operator s = .error ⟨s⟩ ↔ ¬ isSizeLiteral s = true := by
    rw [Condition.size?]
    split <;> simp [*]
  refine ⟨size_literal_stripped s, ?_, ?_, ?_⟩
  · rw [accepted, size_literal_iff_number]
  · rw [refused, size_literal_iff_number]
  · intro h rest hr
    exact number_leads (accepted.mp h) hr

/-- A size right before a multi-line string that does not end. -/
theorem unclosed_behind_size : Condition.size? .larger "10M" = .ok (.size .larger "10M") ∧
    (∀ c ∈ "text:".toList.head?, isDigit c = false ∧ isScale c = false) ∧
    Leads "10M" (.number "10M") "text:" := by
  have accepted : Condition.size? .larger "10M" = .ok (.size .larger "10M") := rfl
  have apart : ∀ c ∈ "text:".toList.head?, isDigit c = false ∧ isScale c = false := by
    intro c hc
    obtain rfl : 't' = c := Option.some.inj hc
    exact ⟨rfl, rfl⟩
  exact ⟨accepted, apart, (size_check_reads_number .larger "10M").2.2.2 accepted "text:" apart⟩

end SieveRules
