import SieveRules.Proofs.Advice
import SieveRules.Proofs.Convertible
/-!
Rules without conditions. A script gives one where a branch joins tests without naming any, and
only there; such a rule is warned of, and is written back as a branch that always applies.
-/

namespace SieveRules

namespace Command

variable {branch : Command} {c : Combinator} {conditions : List Condition}

/-- The one test of the branch joins others, of which there are none. -/
def AsksNone (branch : Command) : Prop :=
  branch.name ≠ "else" ∧ ∃ test, branch.tests = [test] ∧ test.tests = [] ∧
    ∃ c : Combinator, test.name = c.word

theorem Asks.none_iff (h : branch.Asks c conditions) : conditions = [] ↔ branch.AsksNone := by
  cases h with
  | otherwise hn =>
    constructor
    · intro none
      cases none
    · rintro ⟨other, -⟩
      exact absurd hn other
  | @single test condition hn ht stands =>
    constructor
    · intro none
      cases none
    · rintro ⟨-, other, hother, -, joint, hc⟩
      obtain rfl : test = other := by simpa [ht] using hother
      have named := stands_not_joined stands
      rw [hc, named_combinator] at named
      cases named
  | @joined test _ _ hn ht hc stands =>
    constructor
    · rintro rfl
      exact ⟨hn, test, ht, List.forall₂_nil_right_iff.mp stands, c, hc⟩
    · rintro ⟨-, other, hother, none, -⟩
      obtain rfl : test = other := by simpa [ht] using hother
      rw [none] at stands
      exact List.forall₂_nil_left_iff.mp stands

theorem AsksNone.convertible_iff (h : branch.AsksNone) : branch.IsConvertible ↔ branch.IsFlat := by
  obtain ⟨hn, test, ht, none, c, hc⟩ := h
  constructor
  · rintro ⟨flat, -⟩
    exact flat
  · intro flat
    exact ⟨flat, c, [], .joined hn ht hc (none ▸ .nil)⟩

end Command

theorem forall₂_item_iff {α β : Type} {R : α → β → Prop} {items : List α} {others : List β}
    (h : List.Forall₂ R items others) {P : α → Prop} {Q : β → Prop}
    (same : ∀ a b, R a b → (P a ↔ Q b)) (n : Nat) :
    (∃ a, ItemAt items n a ∧ P a) ↔ ∃ b, ItemAt others n b ∧ Q b := by
  have listed : ∀ k : Nat, (∃ a, items[k]? = some a ∧ P a) ↔ ∃ b, others[k]? = some b ∧ Q b := by
    induction h with
    | nil => simp
    | @cons a b _ _ related _ ih =>
      intro k
      cases k with
      | zero => simp [same a b related]
      | succ k => exact ih k
  constructor
  · rintro ⟨a, ⟨k, rfl, hk⟩, ha⟩
    obtain ⟨b, hk, hb⟩ := (listed k).mp ⟨a, hk, ha⟩
    exact ⟨b, ⟨k, rfl, hk⟩, hb⟩
  · rintro ⟨b, ⟨k, rfl, hk⟩, hb⟩
    obtain ⟨a, hk, ha⟩ := (listed k).mpr ⟨b, hk, hb⟩
    exact ⟨a, ⟨k, rfl, hk⟩, ha⟩

namespace Converted

variable {branches : List Command} {policies : List Policy}

theorem taken (h : Converted branches policies) :
    ∃ taken : List Command, taken.Sublist branches ∧
      List.Forall₂ (fun branch policy => branch.Asks policy.combinator policy.conditions) taken
        policies := by
  induction h with
  | nil => exact ⟨[], .slnil, .nil⟩
  | @rule branch _ _ _ _ asks _ _ ih =>
    obtain ⟨taken, sub, paired⟩ := ih
    exact ⟨branch :: taken, sub.cons_cons branch, .cons asks paired⟩
  | @passed branch _ _ _ _ ih =>
    obtain ⟨taken, sub, paired⟩ := ih
    exact ⟨taken, sub.cons branch, paired⟩

theorem exists_none_iff (h : Converted branches policies) :
    (∃ policy ∈ policies, policy.conditions = []) ↔
      ∃ branch ∈ branches, branch.AsksNone ∧ branch.IsFlat := by
  induction h with
  | nil => simp
  | @rule branch _ policy _ flat asks _ _ ih =>
    rw [List.exists_mem_cons_iff, List.exists_mem_cons_iff, ih, asks.none_iff, and_iff_left flat]
  | @passed branch _ _ other _ ih =>
    rw [List.exists_mem_cons_iff, ih]
    have unasked : ¬ (branch.AsksNone ∧ branch.IsFlat) := by
      rintro ⟨asks, flat⟩
      exact other (asks.convertible_iff.mpr flat)
    exact (or_iff_right unasked).symm

end Converted

namespace RuleSet

variable {text : String} {set : RuleSet} {source source' : IdSource}

theorem converted_of_parse (h : (parse text source).1 = .ok (set, source')) :
    ∃ script, Script.parse text = .ok script ∧
      Converted (script.commands.filter Command.isBranch) set.policies := by
  obtain ⟨script, hs, outlined⟩ := Outline.parse_ok_iff.mp (outline_of_parse h)
  obtain ⟨-, outline⟩ := Script.outline_ok_iff.mp outlined
  refine ⟨script, hs, ?_⟩
  rw [show set.policies = _ from congrArg Outline.policies outline]
  exact converted_policies fun command hc => Script.tests_lower hs hc

theorem no_conditions_warned_iff (active : ∀ rule ∈ set.rules, rule.active = true) {n : Nat} :
    .noConditions n ∈ set.validate ↔
      ∃ rule, ItemAt set.rules n rule ∧ rule.conditions = [] := by
  rw [mem_validate_iff]
  constructor
  · rintro ⟨rule, ⟨stands, -⟩, none⟩
    exact ⟨rule, stands, none⟩
  · rintro ⟨rule, ⟨k, hn, hk⟩, none⟩
    exact ⟨rule, ⟨⟨k, hn, hk⟩, active rule (List.mem_of_getElem? hk)⟩, none⟩

/-- Of a filter that is read from some text, a rule has no conditions exactly where its branch joins
tests and names none. Some branch does so, and has no block in its block, exactly where the filter
has such a rule. These rules are the ones that are warned of as having no conditions, and in the
script of the filter their branches always apply. -/
theorem conditionless_iff_asks_none (text : String) (source source' : IdSource) (set : RuleSet)
    (h : (parse text source).1 = .ok (set, source')) :
    ∃ script again taken, Script.parse text = .ok script ∧ Script.parse set.generate = .ok again ∧
      ((∃ rule ∈ set.rules, rule.conditions = []) ↔
        ∃ branch ∈ script.commands.filter Command.isBranch, branch.AsksNone ∧ branch.IsFlat) ∧
      taken.Sublist (script.commands.filter Command.isBranch) ∧
      List.Forall₂ (fun branch rule => branch.AsksNone ↔ rule.conditions = []) taken set.rules ∧
      (∀ n, .noConditions n ∈ set.validate ↔ ∃ branch, ItemAt taken n branch ∧ branch.AsksNone) ∧
      List.Forall₂ (fun branch test => branch.AsksNone → test = Condition.always.toTest) taken
        (again.commands.flatMap Command.tests) := by
  have recoverable := recoverable_of_parse h
  obtain ⟨script, parsed, converted⟩ := converted_of_parse h
  obtain ⟨taken, sub, asked⟩ := converted.taken
  have paired : List.Forall₂ (fun branch rule => branch.AsksNone ↔ rule.conditions = []) taken
      set.rules := by
    refine (List.forall₂_map_right_iff.mp asked).imp ?_
    intro branch rule asks
    exact asks.none_iff.symm
  refine ⟨script, set.toScript, taken, parsed, parse_generate recoverable.sized, ?_, sub, paired,
    ?_, ?_⟩
  · rw [← converted.exists_none_iff]
    simp [policies]
  · intro n
    rw [no_conditions_warned_iff fun rule hr => (recoverable rule hr).active]
    exact (forall₂_item_iff paired (fun _ _ same => same) n).symm
  · rw [toScript_tests, recoverable.activeRules, List.forall₂_map_right_iff]
    refine paired.imp ?_
    intro branch rule same none
    rw [Policy.toTest, same.mp none]

/-- A branch that is skipped, one that joins no tests, and one that does so around a block. -/
def bareJoins : String :=
  "if not true \x7b keep; \x7d elsif allof \x7b stop; \x7d elsif anyof \x7b if true \x7b \x7d \x7d"

theorem bareJoins_conditionless :
    ∃ set source' script, (parse bareJoins (.startingAt 1)).1 = .ok (set, source') ∧
      Script.parse bareJoins = .ok script ∧ set.policies = [⟨true, .allof, [], [.stop]⟩] ∧
      (∃ branch ∈ script.commands.filter Command.isBranch, branch.AsksNone ∧ branch.IsFlat) ∧
      ∃ again, Script.parse set.generate = .ok again ∧
        again.commands.flatMap Command.tests = [Condition.always.toTest] := by
  have outlined : (Outline.parse bareJoins).1 = .ok ⟨[⟨true, .allof, [], [.stop]⟩], .empty⟩ :=
    except_ok_of_toOption (by decide +kernel)
  obtain ⟨set, source', read, same⟩ := @parse_ok _ (.startingAt 1) _ outlined
  have policies : set.policies = [⟨true, .allof, [], [.stop]⟩] := congrArg Outline.policies same
  obtain ⟨script, again, taken, parsed, written, some_iff, -, paired, -, tests⟩ :=
    conditionless_iff_asks_none bareJoins (.startingAt 1) source' set read
  obtain ⟨rule, rules, held⟩ := List.map_eq_singleton_iff.mp policies
  have none : rule.conditions = [] := congrArg Policy.conditions held
  rw [rules] at paired some_iff
  obtain ⟨branch, _, same, rest, rfl⟩ := List.forall₂_cons_right_iff.mp paired
  cases List.forall₂_nil_right_iff.mp rest
  obtain ⟨test, _, always, rest, written_tests⟩ := List.forall₂_cons_left_iff.mp tests
  cases List.forall₂_nil_left_iff.mp rest
  refine ⟨set, source', script, read, parsed, policies, ?_, again, written, ?_⟩
  · exact some_iff.mp ⟨rule, List.mem_cons_self, none⟩
  · rw [written_tests, always (same.mpr none)]

/-- A branch that asks for some of no tests comes back as a rule without conditions, is warned of,
and is written as one that always applies. -/
theorem anyOfNone_conditionless :
    ∃ set source', parse anyOfNone (.startingAt 1) = (.ok (set, source'), []) ∧
      (∃ rule ∈ set.rules, rule.conditions = []) ∧ set.validate = [.noConditions 1] ∧
      set.generate = "if true\n\x7b\n    discard;\n\x7d\n" := by
  have found : (parse anyOfNone (.startingAt 1)).1.toOption.map
      (fun found => (found.1.policies, found.1.validate, found.1.generate)) =
        some ([⟨true, .anyof, [], [.discard]⟩], [.noConditions 1],
          "if true\n\x7b\n    discard;\n\x7d\n") := by
    decide +kernel
  have silent : (parse anyOfNone (.startingAt 1)).2 = [] := by
    decide +kernel
  obtain ⟨⟨set, source'⟩, read, parts⟩ := Option.map_eq_some_iff.mp found
  obtain ⟨policies, others⟩ := Prod.mk.inj parts
  obtain ⟨warned, written⟩ := Prod.mk.inj others
  obtain ⟨rule, rules, held⟩ := List.map_eq_singleton_iff.mp policies
  refine ⟨set, source', Prod.ext (except_ok_of_toOption read) silent, ?_, warned, written⟩
  exact ⟨rule, rules ▸ List.mem_cons_self, congrArg Policy.conditions held⟩

end RuleSet

end SieveRules
