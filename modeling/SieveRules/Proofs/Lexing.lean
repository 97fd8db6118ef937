import SieveRules.Proofs.Text
import SieveRules.Rule.Condition
import SieveRules.Script.Printer
import SieveRules.Token.Lexer
/-!
What written tokens read back as. `Lexes` ties a text to the tokens that mean something in it;
one lemma a kind of token puts such a token in front of a text that is understood already. Words,
tags and numbers have to end where they are meant to end, which is what `AtBoundary` says.
-/

namespace SieveRules

open Text

/-- The text does not carry on a word, a tag or a number that stands before it. -/
def AtBoundary (text : List Char) : Prop :=
  ∀ c ∈ text.head?, isWordPart c = false ∧ c ≠ ':'

@[simp] theorem at_boundary_nil : AtBoundary [] := by
  simp [AtBoundary]

theorem at_boundary_cons {c : Char} {text : List Char} :
    AtBoundary (c :: text) ↔ isWordPart c = false ∧ c ≠ ':' := by
  simp [AtBoundary]

theorem AtBoundary.append {text rest : List Char} (h : AtBoundary text) (hr : AtBoundary rest) :
    AtBoundary (text ++ rest) := by
  cases text with
  | nil => exact hr
  | cons c text => exact at_boundary_cons.mpr (at_boundary_cons.mp h)

def isWord (s : String) : Bool :=
  match s.toList with
  | [] => false
  | c :: cs => isWordStart c && cs.all isWordPart

def isTag (s : String) : Bool :=
  match s.toList with
  | ':' :: cs => cs.all isWordPart
  | _ => false

theorem word_part_of_start {c : Char} (h : isWordStart c = true) : isWordPart c = true := by
  simp [isWordPart, h]

theorem word_part_of_digit {c : Char} (h : isDigit c = true) : isWordPart c = true := by
  simp [isWordPart, h]

theorem word_part_of_scale {c : Char} (h : isScale c = true) : isWordPart c = true := by
  simp only [isScale, Bool.or_eq_true, decide_eq_true_eq] at h
  rcases h with ((((rfl | rfl) | rfl) | rfl) | rfl) | rfl <;> decide

theorem start_not_digit {c : Char} (h : isWordStart c = true) : isDigit c = false := by
  simp only [isWordStart, isDigit, Bool.or_eq_true, Bool.and_eq_true, decide_eq_true_eq,
    Bool.and_eq_false_iff, decide_eq_false_iff_not] at *
  simp only [Char.le_def, UInt32.le_iff_toNat_le] at *
  rcases h with (h | h) | rfl
  · right; have : 'a'.val.toNat = 97 := rfl; have : '9'.val.toNat = 57 := rfl; omega
  · right; have : 'A'.val.toNat = 65 := rfl; have : '9'.val.toNat = 57 := rfl; omega
  · right; decide

theorem word_part_plain {c : Char} (h : isWordPart c = true) :
    Token.punctuation? c = none ∧ isBlank c = false ∧ c ≠ '#' ∧ c ≠ '/' ∧ c ≠ '"' ∧ c ≠ ':' := by
  have distinct : ∀ d, isWordPart d = false → c ≠ d := by
    rintro d hd rfl
    simp [h] at hd
  refine ⟨?_, ?_, distinct _ rfl, distinct _ rfl, distinct _ rfl, distinct _ rfl⟩
  · simp [Token.punctuation?, distinct ';' rfl, distinct ',' rfl, distinct '(' rfl,
      distinct ')' rfl, distinct '{' rfl, distinct '}' rfl, distinct '[' rfl, distinct ']' rfl]
  · simp [isBlank, distinct ' ' rfl, distinct '\t' rfl, distinct '\n' rfl, distinct '\r' rfl,
      distinct '\x0c' rfl]

theorem AtBoundary.no_word_part {text : List Char} (h : AtBoundary text) :
    ∀ c ∈ text.head?, isWordPart c = false :=
  fun c hc => (h c hc).1

theorem word_part_of_capital {c : Char} (h : c.val ≥ 'A'.val ∧ c.val ≤ 'Z'.val) :
    isWordPart c = true := by
  simp only [isWordPart, isWordStart, Char.le_def, Bool.or_eq_true, Bool.and_eq_true,
    decide_eq_true_eq]
  exact .inl (.inl (.inr h))

theorem lower_of_not_word_part {c : Char} (h : isWordPart c = false) : c.toLower = c := by
  unfold Char.toLower
  exact dif_neg fun capital => by simp [word_part_of_capital capital] at h

theorem word_part_lower {c : Char} (h : isWordPart c = true) : isWordPart c.toLower = true := by
  unfold Char.toLower
  split
  · rename_i hc
    have h₁ := UInt32.le_iff_toNat_le.mp hc.1
    have h₂ := UInt32.le_iff_toNat_le.mp hc.2
    have sum : (c.val + ('a'.val - 'A'.val)).toNat = c.val.toNat + 32 := by
      have : 'Z'.val.toNat = 90 := rfl
      have : ('a'.val - 'A'.val).toNat = 32 := rfl
      rw [UInt32.toNat_add]
      omega
    have : 'A'.val.toNat = 65 := rfl
    have : 'Z'.val.toNat = 90 := rfl
    have : 'a'.val.toNat = 97 := rfl
    have : 'z'.val.toNat = 122 := rfl
    simp only [isWordPart, isWordStart, Char.le_def, UInt32.le_iff_toNat_le, sum, Bool.or_eq_true,
      Bool.and_eq_true, decide_eq_true_eq]
    omega
  · exact h

theorem boundary_lower_ne {c d : Char} {text : List Char} (h : AtBoundary (c :: text))
    (hd : isWordPart d = true ∨ d = ':') : c.toLower ≠ d := by
  obtain ⟨hc, hne⟩ := at_boundary_cons.mp h
  rw [lower_of_not_word_part hc]
  rintro rfl
  simp [hc, hne] at hd

theorem introducer_part {d : Char} (h : d ∈ ['t', 'e', 'x', 't', ':']) :
    isWordPart d = true ∨ d = ':' := by
  simp only [List.mem_cons, List.not_mem_nil, or_false] at h
  rcases h with rfl | rfl | rfl | rfl | rfl <;> decide

theorem word_opens_no_multiline {word text : List Char} (hw : word.all isWordPart = true)
    (ht : AtBoundary text) : Token.opensMultiline (word ++ text) = false := by
  rw [Token.opensMultiline, decide_eq_false_iff_not]
  intro h
  rcases Nat.lt_or_ge word.length 5 with short | long
  · -- the character behind the word would be a letter or a colon
    obtain ⟨d, hd⟩ : ∃ d, ['t', 'e', 'x', 't', ':'][word.length]? = some d :=
      ⟨_, List.getElem?_eq_getElem short⟩
    have at_end := congrArg (·[word.length]?) h
    simp only [List.getElem?_map, List.getElem?_take, short, if_true,
      List.getElem?_append_right (Nat.le_refl _), Nat.sub_self, hd] at at_end
    cases text with
    | nil => simp at at_end
    | cons c text =>
      simp only [List.getElem?_cons_zero, Option.map_some, Option.some.injEq] at at_end
      exact boundary_lower_ne ht (introducer_part (List.mem_of_getElem? hd)) at_end
  · -- the colon would be a part of the word
    have at_colon : word[4].toLower = ':' := by
      have := congrArg (·[4]?) h
      simp only [List.getElem?_map, List.getElem?_take, List.getElem?_append_left long,
        List.getElem?_eq_getElem long] at this
      simpa using this
    have part := word_part_lower (List.all_eq_true.mp hw word[4] (List.getElem_mem _))
    rw [at_colon] at part
    exact absurd part (by decide)

theorem quotedBody_escaped (value rest : List Char) :
    Token.quotedBody (value.flatMap escape ++ '"' :: rest) =
      some ⟨value, value.flatMap escape ++ ['"'], rest⟩ := by
  induction value with
  | nil => simp [Token.quotedBody]
  | cons c value ih =>
    by_cases hc : c = '"' ∨ c = '\\'
    · simp [escape, hc, Token.quotedBody, ih, Scanned.push]
    · obtain ⟨hq, hb⟩ := not_or.mp hc
      have step : Token.quotedBody (c :: (value.flatMap escape ++ '"' :: rest)) =
          (Token.quotedBody (value.flatMap escape ++ '"' :: rest)).map (.push [c] [c]) := by
        rw [Token.quotedBody] <;> simp [hq, hb]
      simp [escape, hq, hb, step, ih, Scanned.push]

theorem spansFrom_scanned {offset : Nat} {c : Char} {rest : List Char} {found : Scanned Token}
    (hc : isBlank c = false) (hs : Token.scan c rest = .ok found) :
    spansFrom offset (c :: rest) =
      (spansFrom (offset + size found.text) found.rest).map (⟨found.value, offset⟩ :: ·) := by
  rw [spansFrom]
  simp only [hc, Bool.false_eq_true, if_false]
  split
  · rename_i he
    cases hs.symm.trans he
  · rename_i found' he
    obtain rfl : found = found' := Except.ok.inj (hs.symm.trans he)
    split <;> rename_i hr <;> rw [hr] <;> rfl

theorem spansFrom_unscanned {offset : Nat} {c : Char} {rest : List Char} {fault : Fault}
    (hc : isBlank c = false) (hs : Token.scan c rest = .error fault) :
    spansFrom offset (c :: rest) = .error (fault.at offset) := by
  rw [spansFrom]
  simp only [hc, Bool.false_eq_true, if_false]
  split
  · rename_i fault' he
    cases hs.symm.trans he
    rfl
  · rename_i he
    cases hs.symm.trans he

def meaning (spans : List Span) : List Token :=
  (spans.filter fun s => !s.token.isComment).map Span.token

/-- The text reads, and this is what its tokens say. -/
def Lexes (text : List Char) (tokens : List Token) : Prop :=
  ∀ offset, ∃ spans, spansFrom offset text = .ok spans ∧ meaning spans = tokens

theorem lexes_nil : Lexes [] [] :=
  fun offset => ⟨[], by simp [spansFrom], rfl⟩

theorem Lexes.blank {c : Char} {text : List Char} {tokens : List Token}
    (hc : isBlank c = true) (h : Lexes text tokens) : Lexes (c :: text) tokens := by
  intro offset
  obtain ⟨spans, hs, ht⟩ := h (offset + c.utf8Size)
  exact ⟨spans, by rw [spansFrom, if_pos hc, hs], ht⟩

theorem Lexes.blanks {indent text : List Char} {tokens : List Token}
    (hi : indent.all isBlank = true) (h : Lexes text tokens) : Lexes (indent ++ text) tokens := by
  induction indent with
  | nil => exact h
  | cons c indent ih =>
    simp only [List.all_cons, Bool.and_eq_true] at hi
    exact .blank hi.1 (ih hi.2)

theorem Lexes.scanned {c : Char} {rest : List Char} {found : Scanned Token} {tokens : List Token}
    (hc : isBlank c = false) (hs : Token.scan c rest = .ok found)
    (hv : found.value.isComment = false) (h : Lexes found.rest tokens) :
    Lexes (c :: rest) (found.value :: tokens) := by
  intro offset
  obtain ⟨spans, hr, ht⟩ := h (offset + size found.text)
  refine ⟨⟨found.value, offset⟩ :: spans, ?_, by simp [meaning, hv, ← ht]⟩
  rw [spansFrom_scanned hc hs, hr]
  rfl

theorem Lexes.punctuation {c : Char} {token : Token} {text : List Char} {tokens : List Token}
    (hp : Token.punctuation? c = some token) (h : Lexes text tokens) :
    Lexes (c :: text) (token :: tokens) := by
  have plain : isBlank c = false ∧ token.isComment = false := by
    unfold Token.punctuation? at hp
    repeat' split at hp
    all_goals simp only [Option.some.injEq, reduceCtorEq] at hp
    all_goals subst hp; subst c; exact ⟨rfl, rfl⟩
  have scanned : Token.scan c text = .ok ⟨token, [c], text⟩ := by simp [Token.scan, hp]
  exact .scanned plain.1 scanned plain.2 h

/-- Whatever the characters of a string are, its quotation reads as the string. -/
theorem Lexes.quote (value : String) {text : List Char} {tokens : List Token}
    (h : Lexes text tokens) :
    Lexes ((quote value).toList ++ text) (.quoted value :: tokens) := by
  have scanned : Token.scan '"' (value.toList.flatMap escape ++ '"' :: text) =
      .ok ⟨.quoted value, '"' :: (value.toList.flatMap escape ++ ['"']), text⟩ := by
    simp [Token.scan, Token.punctuation?, Token.ofBody, quotedBody_escaped]
  have written : (SieveRules.quote value).toList ++ text =
      '"' :: (value.toList.flatMap escape ++ '"' :: text) := by simp [SieveRules.quote]
  rw [written]
  exact .scanned rfl scanned rfl h

theorem Lexes.word {name : String} (hn : isWord name = true) {text : List Char}
    {tokens : List Token} (ht : AtBoundary text) (h : Lexes text tokens) :
    Lexes (name.toList ++ text) (.identifier name :: tokens) := by
  unfold isWord at hn
  split at hn
  · simp at hn
  · rename_i c cs hc
    simp only [Bool.and_eq_true] at hn
    obtain ⟨hp, hb, h₁, h₂, h₃, h₄⟩ := word_part_plain (word_part_of_start hn.1)
    have all_parts : (c :: cs).all isWordPart = true := by
      simp [word_part_of_start hn.1, hn.2]
    have scanned : Token.scan c (cs ++ text) = .ok ⟨.identifier name, c :: cs, text⟩ := by
      have opens := word_opens_no_multiline all_parts ht
      rw [List.cons_append] at opens
      simp [Token.scan, hp, h₁, h₂, h₃, h₄, opens, start_not_digit hn.1, hn.1,
        takeWhile_run hn.2 ht.no_word_part, dropWhile_run hn.2 ht.no_word_part, ← hc]
    rw [hc, List.cons_append]
    exact .scanned hb scanned rfl h

theorem Lexes.tag {name : String} (hn : isTag name = true) (hl : lowerCase name = name)
    {text : List Char} {tokens : List Token} (ht : AtBoundary text) (h : Lexes text tokens) :
    Lexes (name.toList ++ text) (.tag name :: tokens) := by
  unfold isTag at hn
  split at hn
  · rename_i cs hc
    have scanned : Token.scan ':' (cs ++ text) = .ok ⟨.tag name, ':' :: cs, text⟩ := by
      have opens : Token.opensMultiline (':' :: (cs ++ text)) = false := by
        simp [Token.opensMultiline, show ':'.toLower = ':' from rfl]
      simp [Token.scan, Token.punctuation?, opens, takeWhile_run hn ht.no_word_part,
        dropWhile_run hn ht.no_word_part, ← hc, hl]
    rw [hc, List.cons_append]
    exact .scanned rfl scanned rfl h
  · simp at hn

theorem size_literal_parts {s : String} (hs : isSizeLiteral s = true) :
    ∃ c digits scale, s.toList = c :: digits ++ scale ∧ isDigit c = true ∧
      digits.all isDigit = true ∧ (scale = [] ∨ ∃ d, scale = [d] ∧ isScale d = true) := by
  simp only [isSizeLiteral, Bool.and_eq_true, Bool.not_eq_true'] at hs
  obtain ⟨hd, hr⟩ := hs
  have digits_all : (s.toList.takeWhile isDigit).all isDigit = true := List.all_takeWhile
  have whole := List.takeWhile_append_dropWhile (p := isDigit) (l := s.toList)
  cases hdigits : s.toList.takeWhile isDigit with
  | nil => simp [hdigits] at hd
  | cons c digits =>
    rw [hdigits] at digits_all whole
    simp only [List.all_cons, Bool.and_eq_true] at digits_all
    refine ⟨c, digits, s.toList.dropWhile isDigit, whole.symm, digits_all.1, digits_all.2, ?_⟩
    split at hr
    · rename_i he; exact .inl he
    · rename_i d he; exact .inr ⟨d, he, hr⟩
    · simp at hr

theorem scale_not_digit {c : Char} (h : isScale c = true) : isDigit c = false := by
  simp only [isScale, Bool.or_eq_true, decide_eq_true_eq] at h
  rcases h with ((((rfl | rfl) | rfl) | rfl) | rfl) | rfl <;> rfl

theorem size_literal_of_parts {digits scale : List Char} (hd : digits ≠ [])
    (hall : digits.all isDigit = true)
    (hs : scale = [] ∨ ∃ d, scale = [d] ∧ isScale d = true) :
    isSizeLiteral (String.ofList (digits ++ scale)) = true := by
  have ends : ∀ c ∈ scale.head?, isDigit c = false := by
    rcases hs with rfl | ⟨d, rfl, hd⟩
    · simp
    · simp [scale_not_digit hd]
  have nonempty : digits.isEmpty = false := by
    rwa [List.isEmpty_eq_false_iff]
  simp only [isSizeLiteral, String.toList_ofList, takeWhile_run hall ends, dropWhile_run hall ends,
    nonempty]
  rcases hs with rfl | ⟨d, rfl, hd⟩
  · rfl
  · exact hd

theorem size_literal_word_parts {s : String} (hs : isSizeLiteral s = true) :
    s.toList.all isWordPart = true := by
  obtain ⟨c, digits, scale, hc, hdigit, hall, hscale⟩ := size_literal_parts hs
  rw [hc, List.all_append, Bool.and_eq_true]
  refine ⟨List.all_eq_true.mpr fun d hd => ?_, ?_⟩
  · rcases List.mem_cons.mp hd with rfl | hd
    · exact word_part_of_digit hdigit
    · exact word_part_of_digit (List.all_eq_true.mp hall d hd)
  · rcases hscale with rfl | ⟨d, rfl, hd⟩
    · rfl
    · simp [word_part_of_scale hd]

theorem scanNumber_literal {digits : String} (hd : isSizeLiteral digits = true)
    {text : List Char} (ht : ∀ c ∈ text.head?, isDigit c = false ∧ isScale c = false) :
    Token.scanNumber (digits.toList ++ text) = ⟨.number digits, digits.toList, text⟩ := by
  obtain ⟨c, ds, scale, hc, hdigit, hall, hscale⟩ := size_literal_parts hd
  have run : (c :: ds).all isDigit = true := by simp [hdigit, hall]
  have run_ends : ∀ d ∈ (scale ++ text).head?, isDigit d = false := by
    rcases hscale with rfl | ⟨d, rfl, hs⟩
    · exact fun d hd => (ht d hd).1
    · simp [scale_not_digit hs]
  rw [hc, List.append_assoc, Token.scanNumber, takeWhile_run run run_ends,
    dropWhile_run run run_ends]
  rcases hscale with rfl | ⟨d, rfl, hs⟩
  · rw [List.append_nil] at hc
    cases text with
    | nil => simp [← hc]
    | cons d text => simp [(ht d rfl).2, ← hc]
  · simp only [List.cons_append, List.nil_append, hs, if_true]
    simp [← List.cons_append, ← hc]

theorem Lexes.number {digits : String} (hd : isSizeLiteral digits = true) {text : List Char}
    {tokens : List Token} (ht : AtBoundary text) (h : Lexes text tokens) :
    Lexes (digits.toList ++ text) (.number digits :: tokens) := by
  have ends : ∀ c ∈ text.head?, isDigit c = false ∧ isScale c = false := by
    intro c hc
    have part := ht.no_word_part c hc
    refine ⟨?_, ?_⟩ <;> rw [← Bool.not_eq_true] <;> intro hd
    · simp [word_part_of_digit hd] at part
    · simp [word_part_of_scale hd] at part
  have number := scanNumber_literal hd ends
  have parts := size_literal_word_parts hd
  obtain ⟨c, ds, scale, hc, hdigit, -⟩ := size_literal_parts hd
  obtain ⟨hp, hb, h₁, h₂, h₃, h₄⟩ := word_part_plain (word_part_of_digit hdigit)
  have opens := word_opens_no_multiline parts ht
  rw [List.cons_append] at hc
  generalize ds ++ scale = tail at hc
  rw [hc, List.cons_append] at opens number ⊢
  have scanned : Token.scan c (tail ++ text) = .ok ⟨.number digits, c :: tail, text⟩ := by
    simp [Token.scan, hp, h₁, h₂, h₃, h₄, opens, hdigit, number]
  exact .scanned hb scanned rfl h

end SieveRules
