import SieveRules.Proofs.Grammar
/-!
The numbers of a script that parses. Whatever the text is, the lexer makes numbers out of size
literals only, and the tree cites no argument that the grammar does not derive from its tokens.
-/

namespace SieveRules

open Text

theorem scan_number_literal {c : Char} {rest : List Char} (hc : isDigit c = true)
    {digits : String} (h : (Token.scanNumber (c :: rest)).value = .number digits) :
    isSizeLiteral digits = true := by
  have run : ((c :: rest).takeWhile isDigit).all isDigit = true := List.all_takeWhile
  have nonempty : (c :: rest).takeWhile isDigit ≠ [] := by simp [hc]
  have bare := size_literal_of_parts nonempty run (.inl rfl)
  rw [List.append_nil] at bare
  unfold Token.scanNumber at h
  simp only at h
  split at h
  · cases h
    exact bare
  · rename_i d tail _
    split at h
    · rename_i hd
      cases h
      exact size_literal_of_parts nonempty run (.inr ⟨d, rfl, hd⟩)
    · cases h
      exact bare

theorem of_body_not_number {make : String → Token} {what : Unclosed} {opening : List Char}
    {found : Option (Scanned (List Char))} {s : Scanned Token} {digits : String}
    (hm : ∀ text, make text ≠ .number digits) (h : Token.ofBody make what opening found = .ok s) :
    s.value ≠ .number digits := by
  cases found with
  | none => cases h
  | some body =>
    cases h
    exact hm _

theorem punctuation_not_number {c : Char} {token : Token} {digits : String}
    (h : Token.punctuation? c = some token) : token ≠ .number digits := by
  unfold Token.punctuation? at h
  repeat' split at h
  all_goals cases h
  all_goals exact Token.noConfusion

theorem scan_literal {c : Char} {rest : List Char} {found : Scanned Token}
    (h : Token.scan c rest = .ok found) {digits : String} (hv : found.value = .number digits) :
    isSizeLiteral digits = true := by
  unfold Token.scan at h
  split at h
  · rename_i token hp
    cases h
    exact absurd hv (punctuation_not_number hp)
  · split at h
    · cases h
      cases hv
    · split at h
      · split at h
        · exact absurd hv (of_body_not_number (fun _ => Token.noConfusion) h)
        · cases h
      · split at h
        · exact absurd hv (of_body_not_number (fun _ => Token.noConfusion) h)
        · split at h
          · exact absurd hv (of_body_not_number (fun _ => Token.noConfusion) h)
          · split at h
            · cases h
              cases hv
            · split at h
              · rename_i hc
                cases h
                exact scan_number_literal hc hv
              · split at h
                · cases h
                  cases hv
                · cases h

theorem scan_of_mem_spans {offset : Nat} {input : List Char} {spans : List Span}
    (h : spansFrom offset input = .ok spans) {span : Span} (hs : span ∈ spans) :
    ∃ c rest found, Token.scan c rest = .ok found ∧ found.value = span.token := by
  fun_induction spansFrom offset input generalizing spans with
  | case1 =>
    cases h
    cases hs
  | case2 offset c rest _ ih => exact ih h hs
  | case3 => cases h
  | case4 => cases h
  | case5 offset c rest _ found hscan tail htail ih =>
    cases h
    rcases List.mem_cons.mp hs with rfl | hs
    · exact ⟨c, rest, found, hscan, rfl⟩
    · exact ih htail hs

theorem scan_of_mem_meaning {text : String} {spans : List Span} (h : tokenize text = .ok spans)
    {token : Token} (ht : token ∈ meaning spans) :
    ∃ c rest found, Token.scan c rest = .ok found ∧ found.value = token := by
  obtain ⟨span, hs, rfl⟩ := List.mem_map.mp ht
  exact scan_of_mem_spans h (List.mem_filter.mp hs).1

theorem tokenize_literal {text : String} {spans : List Span} (h : tokenize text = .ok spans)
    {digits : String} (hd : Token.number digits ∈ meaning spans) :
    isSizeLiteral digits = true := by
  obtain ⟨c, rest, found, hscan, hv⟩ := scan_of_mem_meaning h hd
  exact scan_literal hscan hv

theorem Sequence.item_of_mem {α : Type} {item : List Token → α → Prop} {ts : List Token}
    {as : List α} (h : Sequence item ts as) {a : α} (ha : a ∈ as) :
    ∃ us, us ⊆ ts ∧ item us a := by
  induction h with
  | nil => cases ha
  | cons hb _ ih =>
    rcases List.mem_cons.mp ha with rfl | ha
    · exact ⟨_, List.subset_append_left _ _, hb⟩
    · obtain ⟨us, hu, hus⟩ := ih ha
      exact ⟨us, List.subset_append_of_subset_right _ hu, hus⟩

theorem Listed.item_of_mem {α : Type} {item : List Token → α → Prop} {close : Token}
    {ts : List Token} {as : List α} (h : Listed item close ts as) {a : α} (ha : a ∈ as) :
    ∃ us, us ⊆ ts ∧ item us a := by
  induction h with
  | last hb =>
    obtain rfl := List.mem_singleton.mp ha
    exact ⟨_, List.subset_append_left _ _, hb⟩
  | more hb _ ih =>
    rcases List.mem_cons.mp ha with rfl | ha
    · exact ⟨_, List.subset_append_left _ _, hb⟩
    · obtain ⟨us, hu, hus⟩ := ih ha
      exact ⟨us, List.subset_append_of_subset_right _ (List.subset_cons_of_subset _ hu), hus⟩

namespace Test

/-- The argument stands in the test or in one of those it combines. -/
inductive Cites (a : Argument) : Test → Prop where
  | here {test} (h : a ∈ test.arguments) : Cites a test
  | inner {test t} (ht : t ∈ test.tests) (h : Cites a t) : Cites a test

theorem Trail.item_of_mem {test : List Token → Test → Prop} {ts : List Token} {tests : List Test}
    (h : Trail test ts tests) {t : Test} (ht : t ∈ tests) : ∃ us, us ⊆ ts ∧ test us t := by
  cases h with
  | none => cases ht
  | bare hb =>
    obtain rfl := List.mem_singleton.mp ht
    exact ⟨ts, List.Subset.refl _, hb⟩
  | list hl =>
    obtain ⟨us, hu, hus⟩ := hl.item_of_mem ht
    exact ⟨us, List.subset_cons_of_subset _ hu, hus⟩

variable {test : List Token → Test → Prop} {ts : List Token} {name : String}
  {arguments : List Argument} {tests : List Test}

theorem Head.argument_of_mem (h : Head test ts (name, arguments, tests)) {a : Argument}
    (ha : a ∈ arguments) : ∃ us, us ⊆ ts ∧ Argument.Derives us a := by
  cases h with
  | intro hs _ =>
    obtain ⟨us, hu, hus⟩ := hs.item_of_mem ha
    exact ⟨us, List.subset_cons_of_subset _ (List.subset_append_of_subset_left _ hu), hus⟩

theorem Head.test_of_mem (h : Head test ts (name, arguments, tests)) {t : Test}
    (ht : t ∈ tests) : ∃ us, us ⊆ ts ∧ test us t := by
  cases h with
  | intro _ hl =>
    obtain ⟨us, hu, hus⟩ := hl.item_of_mem ht
    exact ⟨us, List.subset_cons_of_subset _ (List.subset_append_of_subset_right _ hu), hus⟩

theorem Cites.derived {a : Argument} {t : Test} (h : Cites a t) {levels : Nat} {ts : List Token}
    (ht : Derives levels ts t) : ∃ us, us ⊆ ts ∧ Argument.Derives us a := by
  induction h generalizing levels ts with
  | here ha =>
    cases levels with
    | zero => exact ht.elim
    | succ levels => exact Head.argument_of_mem ht ha
  | inner hb _ ih =>
    cases levels with
    | zero => exact ht.elim
    | succ levels =>
      obtain ⟨us, hu, hus⟩ := Head.test_of_mem ht hb
      obtain ⟨vs, hv, hvs⟩ := ih hus
      exact ⟨vs, List.Subset.trans hv hu, hvs⟩

end Test

theorem Command.Form.test_of_mem {test : List Token → Test → Prop}
    {block : List Token → List Command → Prop} {ts : List Token} {command : Command}
    (h : Command.Form test block ts command) {t : Test} (ht : t ∈ command.tests) :
    ∃ us, us ⊆ ts ∧ test us t := by
  cases h with
  | line hh =>
    obtain ⟨us, hu, hus⟩ := hh.test_of_mem ht
    exact ⟨us, List.subset_append_of_subset_left _ hu, hus⟩
  | block hh _ =>
    obtain ⟨us, hu, hus⟩ := hh.test_of_mem ht
    exact ⟨us, List.subset_append_of_subset_left _ hu, hus⟩

/-- Whatever text parses, a number in a test of its commands is a size literal. -/
theorem Script.number_literal {text : String} {script : Script} (h : Script.parse text = .ok script)
    {command : Command} (hc : command ∈ script.commands) {t : Test} (ht : t ∈ command.tests)
    {digits : String} (hn : t.Cites (.number digits)) : isSizeLiteral digits = true := by
  obtain ⟨spans, hspans, derived⟩ := Script.parse_ok_iff.mp h
  obtain ⟨ts, hts, hcommand⟩ := derived.item_of_mem hc
  obtain ⟨us, hus, htest⟩ := hcommand.test_of_mem ht
  obtain ⟨vs, hvs, hderived⟩ := hn.derived htest
  cases hderived
  exact tokenize_literal hspans (hts (hus (hvs List.mem_cons_self)))

end SieveRules
