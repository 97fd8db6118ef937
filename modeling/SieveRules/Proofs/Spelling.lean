import SieveRules.Proofs.LetterCase
/-!
The spelling of words. The grammar takes identifiers in small letters, so it derives the same trees
from tokens whose identifiers are in another case; a script whose words change their case keeps its
tree and its rules.
-/

namespace SieveRules

open Text

/-- The grammar derives the same where identifiers are spelled in another case. -/
def CaseFree {α : Type} (language : List Token → α → Prop) : Prop :=
  ∀ ⦃ts us a⦄, us.map Token.folded = ts.map Token.folded → language ts a → language us a

theorem Token.folded_eq {token other : Token} (h : other.folded = token.folded) :
    other = token ∨ ∃ name word, token = .identifier name ∧ other = .identifier word ∧
      word.toLower = name.toLower := by
  cases token <;> cases other <;> simp_all [folded]

theorem folded_cons {token : Token} {ts us : List Token} (ht : ∀ name, token ≠ .identifier name)
    (h : us.map Token.folded = (token :: ts).map Token.folded) :
    ∃ vs, us = token :: vs ∧ vs.map Token.folded = ts.map Token.folded := by
  obtain ⟨other, vs, rfl, he, hv⟩ := List.map_eq_cons_iff.mp h
  rcases Token.folded_eq he with rfl | ⟨name, -, hn, -⟩
  · exact ⟨vs, rfl, hv⟩
  · exact absurd hn (ht name)

theorem folded_singleton {token : Token} {us : List Token} (ht : ∀ name, token ≠ .identifier name)
    (h : us.map Token.folded = [token].map Token.folded) : us = [token] := by
  obtain ⟨rest, rfl, hr⟩ := folded_cons ht h
  rw [List.map_eq_nil_iff.mp hr]

theorem folded_append {ts us vs : List Token}
    (h : vs.map Token.folded = (ts ++ us).map Token.folded) :
    ∃ ts' us', vs = ts' ++ us' ∧ ts'.map Token.folded = ts.map Token.folded ∧
      us'.map Token.folded = us.map Token.folded := by
  rw [List.map_append] at h
  exact List.map_eq_append_iff.mp h

theorem lowerCase_congr {name word : String} (h : word.toLower = name.toLower) :
    lowerCase word = lowerCase name := by
  have alike : Alike name.toList word.toList := by
    rw [Alike, ← toList_toLower, ← toList_toLower, h]
  simpa only [String.ofList_toList] using alike.lowerCase_eq

section

variable {α : Type} {item : List Token → α → Prop} {close : Token}

theorem Sequence.caseFree (hi : CaseFree item) : CaseFree (Sequence item) := by
  intro ts us as same h
  induction h generalizing us with
  | nil =>
    obtain rfl := List.map_eq_nil_iff.mp same
    exact .nil
  | cons ha _ ih =>
    obtain ⟨first, rest, rfl, hf, hr⟩ := folded_append same
    exact .cons (hi hf ha) (ih hr)

theorem Listed.caseFree (hi : CaseFree item) (hc : ∀ name, close ≠ .identifier name) :
    CaseFree (Listed item close) := by
  intro ts us as same h
  induction h generalizing us with
  | last ha =>
    obtain ⟨first, rest, rfl, hf, hr⟩ := folded_append same
    obtain rfl := folded_singleton hc hr
    exact .last (hi hf ha)
  | more ha _ ih =>
    obtain ⟨first, rest, rfl, hf, hr⟩ := folded_append same
    obtain ⟨later, rfl, hl⟩ := folded_cons (fun _ => Token.noConfusion) hr
    exact .more (hi hf ha) (ih hl)

end

namespace Argument

theorem item_caseFree : CaseFree ItemDerives := by
  rintro ts us value same ⟨token, rfl, hv⟩
  refine ⟨token, folded_singleton ?_ same, hv⟩
  rintro name rfl
  cases hv

theorem derives_caseFree : CaseFree Derives := by
  intro ts us argument same h
  cases h with
  | @string token value hv =>
    have plain : ∀ name, token ≠ .identifier name := by
      rintro name rfl
      cases hv
    rw [folded_singleton plain same]
    exact .string hv
  | number digits =>
    rw [folded_singleton (fun _ => Token.noConfusion) same]
    exact .number digits
  | tag name =>
    rw [folded_singleton (fun _ => Token.noConfusion) same]
    exact .tag name
  | emptyList =>
    obtain ⟨later, rfl, hl⟩ := folded_cons (fun _ => Token.noConfusion) same
    rw [folded_singleton (fun _ => Token.noConfusion) hl]
    exact .emptyList
  | stringList hi =>
    obtain ⟨later, rfl, hl⟩ := folded_cons (fun _ => Token.noConfusion) same
    exact .stringList (Listed.caseFree item_caseFree (fun _ => Token.noConfusion) hl hi)

end Argument

namespace Test

variable {test : List Token → Test → Prop}

theorem trail_caseFree (ht : CaseFree test) : CaseFree (Trail test) := by
  intro ts us tests same h
  cases h with
  | none =>
    obtain rfl := List.map_eq_nil_iff.mp same
    exact .none
  | bare hb => exact .bare (ht same hb)
  | list hl =>
    obtain ⟨later, rfl, hr⟩ := folded_cons (fun _ => Token.noConfusion) same
    exact .list (Listed.caseFree ht (fun _ => Token.noConfusion) hr hl)

theorem head_caseFree (ht : CaseFree test) : CaseFree (Head test) := by
  intro ts us head same h
  cases h with
  | @intro word _ _ _ _ ha hl =>
    obtain ⟨other, later, rfl, hw, hr⟩ := List.map_eq_cons_iff.mp same
    obtain ⟨arguments, tests, rfl, hr, hs⟩ := folded_append hr
    have behind := And.intro (Sequence.caseFree Argument.derives_caseFree hr ha)
      (trail_caseFree ht hs hl)
    rcases Token.folded_eq hw with rfl | ⟨name, spelling, hn, rfl, lower⟩
    · exact .intro behind.1 behind.2
    · cases hn
      rw [← lowerCase_congr lower]
      exact .intro behind.1 behind.2

theorem derives_caseFree (levels : Nat) : CaseFree (Derives levels) := by
  induction levels with
  | zero => exact fun _ _ _ _ h => h.elim
  | succ levels ih => exact fun _ _ _ same h => head_caseFree ih same h

end Test

namespace Command

theorem form_caseFree {test : List Token → Test → Prop} {block : List Token → List Command → Prop}
    (ht : CaseFree test) (hb : CaseFree block) : CaseFree (Form test block) := by
  intro ts us command same h
  cases h with
  | line hh =>
    obtain ⟨head, ending, rfl, hd, he⟩ := folded_append same
    rw [folded_singleton (fun _ => Token.noConfusion) he]
    exact .line (Test.head_caseFree ht hd hh)
  | block hh hi =>
    obtain ⟨head, ending, rfl, hd, he⟩ := folded_append same
    obtain ⟨body, rfl, hbody⟩ := folded_cons (fun _ => Token.noConfusion) he
    exact .block (Test.head_caseFree ht hd hh) (hb hbody hi)

theorem blockDerives_caseFree (levels : Nat) : CaseFree (BlockDerives levels) := by
  induction levels with
  | zero => exact fun _ _ _ _ h => h.elim
  | succ levels ih =>
    rintro ts us commands same ⟨body, rfl, hs⟩
    obtain ⟨inside, ending, rfl, hi, he⟩ := folded_append same
    refine ⟨inside, by rw [folded_singleton (fun _ => Token.noConfusion) he], ?_⟩
    exact Sequence.caseFree (form_caseFree (Test.derives_caseFree levels) ih) hi hs

end Command

theorem Script.derives_caseFree : CaseFree Script.Derives := fun _ _ _ same h =>
  Sequence.caseFree (Command.form_caseFree (Test.derives_caseFree maxDepth)
    (Command.blockDerives_caseFree maxDepth)) same h

theorem Token.folded_isComment (token : Token) : token.folded.isComment = token.isComment := by
  cases token <;> rfl

theorem meaning_folded (spans : List Span) :
    (meaning spans).map Token.folded = meaning (spans.map Span.folded) := by
  have kept : ∀ span : Span, span.folded.token.isComment = span.token.isComment :=
    fun span => span.token.folded_isComment
  rw [meaning, meaning, List.filter_map, List.map_map, List.map_map]
  simp only [Function.comp_def, kept]
  rfl

/-- Letters of identifiers, of tags and of the introducers of multi-line strings may change their
case. A text that reads then reads as the same tokens in the same places, identifiers in another
case; its tree is the same, if it has one, and so are its rules but for their names, and what there
is to tell of them. -/
theorem RuleSet.letter_case_changes_nothing (text other : String) (spans : List Span)
    (h : tokenize text = .ok spans) (hr : Recased spans 0 text.toList other.toList) :
    (∃ others, tokenize other = .ok others ∧
      others.map Span.folded = spans.map Span.folded) ∧
    (Script.parse other).toOption = (Script.parse text).toOption ∧
    ∀ source source',
      ((parse other source).1.toOption.map fun found => found.1.outline) =
        ((parse text source').1.toOption.map fun found => found.1.outline) ∧
      (parse other source).2 = (parse text source').2 := by
  obtain ⟨others, reads, same⟩ := spansFrom_recased h hr
  have words : (meaning others).map Token.folded = (meaning spans).map Token.folded := by
    rw [meaning_folded, meaning_folded, same]
  have scripts := Script.parse_of_derives h reads fun _ =>
    ⟨fun derived => Script.derives_caseFree words.symm derived,
      fun derived => Script.derives_caseFree words derived⟩
  obtain ⟨outlines, events⟩ := Outline.parse_of_script scripts
  refine ⟨⟨others, reads, same⟩, scripts, ?_⟩
  intro source source'
  refine ⟨?_, events⟩
  rw [parse_outline, parse_outline, outlines]

/-- A script in small letters, with words that other tokens touch. -/
def softly : String := "if header:is \"If\" text:\nIf\n.\n\x7bvacation:days 7text:\nk\n.\n;\x7d"

def loudly : String := "IF Header:iS \"If\" TeXt:\nIf\n.\n\x7bVACATION:Days 7TEXT:\nk\n.\n;\x7d"

theorem softly_loudly : ∃ spans, tokenize softly = .ok spans ∧
    Recased spans 0 softly.toList loudly.toList ∧
    (∃ others, tokenize loudly = .ok others ∧ others.map Span.folded = spans.map Span.folded) ∧
    ∀ source, ((RuleSet.parse loudly source).1.toOption.map fun found => found.1.outline) =
      some ⟨[⟨true, .allof, [.header defaultComparator .is "If" ["If\n"]],
        [.vacation (some 7) none "k\n"]⟩], .empty⟩ := by
  have found : (tokenize softly).toOption = some [⟨.identifier "if", 0⟩, ⟨.identifier "header", 3⟩,
      ⟨.tag ":is", 9⟩, ⟨.quoted "If", 13⟩, ⟨.multiline "If\n", 18⟩, ⟨.lbrace, 29⟩,
      ⟨.identifier "vacation", 30⟩, ⟨.tag ":days", 38⟩, ⟨.number "7", 44⟩, ⟨.multiline "k\n", 45⟩,
      ⟨.semicolon, 55⟩, ⟨.rbrace, 56⟩] := by
    decide +kernel
  have outlined : (Outline.parse softly).1.toOption = some
      ⟨[⟨true, .allof, [.header defaultComparator .is "If" ["If\n"]],
        [.vacation (some 7) none "k\n"]⟩], .empty⟩ := by
    decide +kernel
  have reads := except_ok_of_toOption found
  refine ⟨_, reads, by decide +kernel, ?_⟩
  obtain ⟨tokens, -, rules⟩ :=
    RuleSet.letter_case_changes_nothing softly loudly _ reads (by decide +kernel)
  refine ⟨tokens, fun source => ?_⟩
  rw [(rules source source).1, RuleSet.parse_outline, outlined]

end SieveRules
