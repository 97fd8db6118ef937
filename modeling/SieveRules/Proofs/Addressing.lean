import SieveRules.Proofs.UniqueIds
/-!
Edits that address a rule by its id. They all mean the first rule of that id, and what they leave is
the filter with that one rule changed, copied or taken out.
-/

namespace SieveRules

section

variable {id : RuleId} {change : Rule → Rule}

theorem updateFirst_absent {rules : List Rule} (absent : ∀ rule ∈ rules, rule.id ≠ id) :
    updateFirst id change rules = rules := by
  induction rules with
  | nil => rfl
  | cons rule rest ih =>
    rw [updateFirst, if_neg (absent rule List.mem_cons_self),
      ih fun other ho => absent other (List.mem_cons_of_mem _ ho)]

theorem updateFirst_first {before after : List Rule} {rule : Rule} (named : rule.id = id)
    (first : ∀ other ∈ before, other.id ≠ id) :
    updateFirst id change (before ++ rule :: after) = before ++ change rule :: after := by
  induction before with
  | nil => rw [List.nil_append, List.nil_append, updateFirst, if_pos named]
  | cons other before ih =>
    rw [List.cons_append, List.cons_append, updateFirst, if_neg (first other List.mem_cons_self),
      ih fun other ho => first other (List.mem_cons_of_mem _ ho)]

/-- A change that keeps ids and undoes itself is undone by changing the same rule once more. -/
theorem updateFirst_updateFirst (same : ∀ rule, (change rule).id = rule.id)
    (undone : ∀ rule, change (change rule) = rule) (rules : List Rule) :
    updateFirst id change (updateFirst id change rules) = rules := by
  induction rules with
  | nil => rfl
  | cons rule rest ih =>
    by_cases named : rule.id = id
    · rw [updateFirst, if_pos named, updateFirst, if_pos ((same rule).trans named), undone]
    · rw [updateFirst, if_neg named, updateFirst, if_neg named, ih]

end

theorem insertIdx_behind {α : Type} (before : List α) (a b : α) (after : List α) :
    (before ++ a :: after).insertIdx (before.length + 1) b = before ++ a :: b :: after := by
  induction before with
  | nil => rfl
  | cons other before ih =>
    rw [List.cons_append, List.length_cons, List.insertIdx_succ_cons, ih, List.cons_append]

namespace RuleSet

/-- The first rule of an id, between the rules before it and those behind it. -/
structure FirstOf (set : RuleSet) (id : RuleId) (before : List Rule) (rule : Rule)
    (after : List Rule) : Prop where
  whole : set.rules = before ++ rule :: after
  named : rule.id = id
  first : ∀ other ∈ before, other.id ≠ id

theorem absent_or_first (set : RuleSet) (id : RuleId) :
    (∀ rule ∈ set.rules, rule.id ≠ id) ∨
      ∃ before rule after, set.FirstOf id before rule after := by
  cases hf : set.rules.find? (·.id = id) with
  | none =>
    left
    intro rule hr
    simpa using List.find?_eq_none.mp hf rule hr
  | some rule =>
    obtain ⟨named, before, after, whole, first⟩ := List.find?_eq_some_iff_append.mp hf
    exact .inr ⟨before, rule, after, whole, by simpa using named, by simpa using first⟩

variable {set : RuleSet} {id : RuleId}

theorem update_update {change : Rule → Rule} (same : ∀ rule, (change rule).id = rule.id)
    (undone : ∀ rule, change (change rule) = rule) :
    ((set.update id change).2.update id change).2 = set := by
  simp only [update, updateFirst_updateFirst same undone]

theorem removeRule_new {rule : Rule} {before after : List Rule} (new : rule.id ∉ set.ids)
    (whole : set.rules = before ++ after) :
    removeRule { set with rules := before ++ rule :: after } rule.id = (true, set) := by
  have others : set.rules.filter (·.id ≠ rule.id) = set.rules := by
    rw [List.filter_eq_self]
    intro other ho
    have differs : other.id ≠ rule.id := fun same => new (List.mem_map.mpr ⟨other, ho, same⟩)
    simpa using differs
  have any : (before ++ rule :: after).any (·.id = rule.id) = true := by
    rw [List.any_eq_true]
    exact ⟨rule, List.mem_append_right _ List.mem_cons_self, by simp⟩
  simp only [removeRule, any]
  rw [List.filter_append, List.filter_cons_of_neg (by simp), ← List.filter_append, ← whole, others]

section

variable (absent : ∀ rule ∈ set.rules, rule.id ≠ id)
include absent

theorem any_absent : set.rules.any (·.id = id) = false := by
  rw [List.any_eq_false]
  simpa using absent

theorem position?_absent : set.position? id = none := by
  rw [position?, List.findIdx?_eq_none_iff]
  simpa using absent

theorem rule?_absent : set.rule? id = none := by
  rw [rule?, List.find?_eq_none]
  simpa using absent

theorem update_absent (change : Rule → Rule) : set.update id change = (false, set) := by
  rw [update, any_absent absent, updateFirst_absent absent]

theorem duplicateRule_absent (source : IdSource) :
    set.duplicateRule id source = (none, set, source) := by
  rw [duplicateRule, position?_absent absent]

theorem removeRule_absent : set.removeRule id = (false, set) := by
  have same : set.rules.filter (·.id ≠ id) = set.rules := by
    rw [List.filter_eq_self]
    simpa using absent
  rw [removeRule, any_absent absent, same]

end

namespace FirstOf

variable {before after : List Rule} {rule : Rule} (h : set.FirstOf id before rule after)
include h

theorem any : set.rules.any (·.id = id) = true := by
  rw [List.any_eq_true, h.whole]
  exact ⟨rule, List.mem_append_right _ List.mem_cons_self, by simpa using h.named⟩

theorem position? : set.position? id = some before.length := by
  have passed : before.findIdx? (·.id = id) = none := by
    rw [List.findIdx?_eq_none_iff]
    simpa using h.first
  rw [RuleSet.position?, h.whole, List.findIdx?_append, passed, List.findIdx?_cons,
    if_pos (by simpa using h.named)]
  simp

theorem rule? : set.rule? id = some rule := by
  rw [RuleSet.rule?, List.find?_eq_some_iff_append]
  exact ⟨by simpa using h.named, before, after, h.whole, by simpa using h.first⟩

theorem update (change : Rule → Rule) :
    set.update id change = (true, { set with rules := before ++ change rule :: after }) := by
  rw [RuleSet.update, h.any, h.whole, updateFirst_first h.named h.first]

theorem duplicateRule (source : IdSource) :
    set.duplicateRule id source = (some source.mint.1,
      { set with rules := before ++ rule :: { rule with id := source.mint.1 } :: after },
      source.mint.2) := by
  rw [RuleSet.duplicateRule, h.position?, h.rule?]
  simp only [h.whole, insertIdx_behind]

theorem removeRule :
    set.removeRule id =
      (true, { set with rules := before ++ after.filter fun other => other.id ≠ id }) := by
  have kept : before.filter (·.id ≠ id) = before := by
    rw [List.filter_eq_self]
    simpa using h.first
  rw [RuleSet.removeRule, h.any, h.whole, List.filter_append, kept,
    List.filter_cons_of_neg (by simpa using h.named)]

end FirstOf

/-- The second and the third rule have one name. -/
def twins : RuleSet :=
  ⟨[⟨⟨true, .anyof, [.always], [.keep]⟩, ⟨"b"⟩⟩, ⟨⟨false, .anyof, [], [.stop]⟩, ⟨"a"⟩⟩,
      ⟨⟨true, .allof, [.never], [.discard]⟩, ⟨"a"⟩⟩], .standard⟩

end RuleSet

end SieveRules
