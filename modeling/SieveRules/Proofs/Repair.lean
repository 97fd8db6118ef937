import Mathlib.Data.List.Nodup
import SieveRules.Proofs.UniqueIds
/-!
The names of the rules of a stored filter. Rules without one are named first, and then each rule
that repeats the name of an earlier one is named anew: a rule keeps its own id where no rule before
it has that id, and what is counted are the rules that lose theirs.
-/

namespace SieveRules

namespace StoredRule

theorem nameAll_cons (source : IdSource) (rule : StoredRule) (rest : List StoredRule) :
    nameAll source (rule :: rest) =
      ((rule.named source).1 :: (nameAll (rule.named source).2 rest).1,
        (nameAll (rule.named source).2 rest).2) :=
  rfl

theorem nameAll_getElem? (source : IdSource) (rules : List StoredRule) (k : Nat) :
    (nameAll source rules).1[k]? =
      rules[k]?.map fun rule => (rule.named (nameAll source (rules.take k)).2).1 := by
  induction rules generalizing source k with
  | nil => rfl
  | cons rule rest ih =>
    cases k with
    | zero => rfl
    | succ k => exact ih (rule.named source).2 k

theorem nameAll_take (source : IdSource) (rules : List StoredRule) (k : Nat) :
    (nameAll source (rules.take k)).1 = (nameAll source rules).1.take k := by
  induction rules generalizing source k with
  | nil => simp [nameAll]
  | cons rule rest ih =>
    cases k with
    | zero => rfl
    | succ k =>
      rw [List.take_succ_cons, nameAll_cons, nameAll_cons, List.take_succ_cons, ih]

theorem named_policy (rule : StoredRule) (source : IdSource) :
    (rule.named source).1.toPolicy = rule.policy := by
  unfold named
  split <;> rfl

theorem nameAll_policies (source : IdSource) (rules : List StoredRule) :
    (nameAll source rules).1.map Rule.toPolicy = rules.map (·.policy) := by
  induction rules generalizing source with
  | nil => rfl
  | cons rule rest ih =>
    rw [nameAll_cons, List.map_cons, List.map_cons, ih, named_policy]

theorem named_new {source : IdSource} {rules : List StoredRule} {k : Nat} {rule : StoredRule}
    (fresh : source.Fresh (nameAll source rules).2.next (rules.filterMap (·.id)))
    (hk : rules[k]? = some rule)
    (unclaimed : ∀ id, rule.id = some id → ∀ other ∈ rules.take k, other.id ≠ some id) :
    (rule.named (nameAll source (rules.take k)).2).1.id ∉
      ((nameAll source rules).1.take k).map (·.id) := by
  rw [← nameAll_take]
  intro hm
  have moved := nameAll_source source (rules.take k)
  have room : (rules.take (k + 1)).countP (·.id.isNone) ≤ rules.countP (·.id.isNone) :=
    (List.take_sublist _ _).countP_le
  rw [List.take_add_one, hk, Option.toList_some, List.countP_append] at room
  rw [nameAll_source, IdSource.moved_next] at fresh
  cases hr : rule.id with
  | some own =>
    simp only [named, hr] at hm
    rcases nameAll_ids hm with earlier | ⟨n, low, high, he⟩
    · obtain ⟨other, ho, same⟩ := List.mem_filterMap.mp earlier
      exact unclaimed own hr other ho same
    · rw [moved, IdSource.moved_next] at high
      have he : own = source.name n := he
      have claimed : own ∈ rules.filterMap (·.id) :=
        List.mem_filterMap.mpr ⟨rule, List.mem_of_getElem? hk, hr⟩
      exact fresh.new n low (by omega) (he ▸ claimed)
  | none =>
    rw [List.countP_singleton, hr, Option.isNone_none, if_pos rfl] at room
    simp only [named, hr, moved] at hm
    rcases nameAll_ids hm with earlier | ⟨n, low, high, he⟩
    · have claimed := (List.take_sublist k rules).filterMap (·.id)
      exact fresh.new _ (Nat.le_add_right _ _) (by omega) (claimed.subset earlier)
    · rw [moved, IdSource.moved_next] at high
      exact fresh.distinct n _ low high (by omega) he.symm

end StoredRule

namespace RuleSet

/-- A rule stays as it is unless an earlier rule of the result has its name. -/
theorem renameRepeated_getElem? (seen : List RuleId) (source : IdSource) {rules : List Rule}
    {k : Nat} {rule : Rule} (h : rules[k]? = some rule) :
    rule.id ∈ seen ++ ((renameRepeated seen source rules).1.take k).map (·.id) ∨
      (renameRepeated seen source rules).1[k]? = some rule := by
  induction rules generalizing seen source k with
  | nil => cases h
  | cons first rest ih =>
    by_cases hr : first.id ∈ seen
    · rw [renameRepeated_repeated hr]
      cases k with
      | zero =>
        cases h
        exact .inl (List.mem_append_left _ hr)
      | succ k =>
        simp only [List.take_succ_cons, List.map_cons, List.getElem?_cons_succ,
          List.perm_middle.mem_iff]
        exact ih (source.mint.1 :: seen) source.mint.2 h
    · rw [renameRepeated_first hr]
      cases k with
      | zero =>
        cases h
        exact .inr rfl
      | succ k =>
        simp only [List.take_succ_cons, List.map_cons, List.getElem?_cons_succ,
          List.perm_middle.mem_iff]
        exact ih (first.id :: seen) source h

theorem mem_renamed_take (seen : List RuleId) (source : IdSource) {rules : List Rule} {k : Nat}
    {id : RuleId} (h : id ∈ (rules.take k).map (·.id)) :
    id ∈ seen ++ ((renameRepeated seen source rules).1.take k).map (·.id) := by
  obtain ⟨rule, hr, rfl⟩ := List.mem_map.mp h
  obtain ⟨j, hj⟩ := List.mem_iff_getElem?.mp hr
  rw [List.getElem?_take] at hj
  split at hj
  · rename_i before
    rcases renameRepeated_getElem? seen source hj with again | kept
    · have shorter : ((renameRepeated seen source rules).1.take j).Sublist
          ((renameRepeated seen source rules).1.take k) :=
        List.take_sublist_take_left (Nat.le_of_lt before)
      exact (shorter.map _ |>.append_left seen).subset again
    · refine List.mem_append_right _ (List.mem_map_of_mem ?_)
      refine List.mem_iff_getElem?.mpr ⟨j, ?_⟩
      rw [List.getElem?_take_of_lt before, kept]
  · cases hj

theorem renameRepeated_kept {seen : List RuleId} {source : IdSource} {rules : List Rule}
    (fresh : source.Fresh (renameRepeated seen source rules).2.2.next (seen ++ rules.map (·.id)))
    {k : Nat} {rule : Rule} (hk : rules[k]? = some rule)
    (hb : rule.id ∉ seen ++ (rules.take k).map (·.id)) :
    (renameRepeated seen source rules).1[k]? = some rule := by
  obtain ⟨inside, rfl⟩ := List.getElem?_eq_some_iff.mp hk
  have parts : rules.take k ++ rules[k] :: rules.drop (k + 1) = rules := by
    rw [← List.drop_eq_getElem_cons, List.take_append_drop]
  have kept := @renameRepeated_keeps seen source (rules.take k) (rules.drop (k + 1)) rules[k]
  rw [parts, List.length_take_of_le (Nat.le_of_lt inside)] at kept
  exact kept fresh hb

end RuleSet

theorem not_mem_take_of_nodup {α : Type} {items : List α} {k : Nat} {a : α}
    (distinct : items.Nodup) (h : items[k]? = some a) : a ∉ items.take k := by
  intro before
  have here : a ∈ items.drop k := by
    refine @List.mem_of_getElem? _ _ 0 _ ?_
    rw [List.getElem?_drop, Nat.add_zero, h]
  exact List.disjoint_take_drop distinct (Nat.le_refl k) before here

theorem countP_zip_congr {α β γ : Type} {p : α × γ → Bool} {q : β × γ → Bool} {as : List α}
    {bs : List β} {cs : List γ} (hl : as.length = bs.length)
    (h : ∀ (k : Nat) a b c, as[k]? = some a → bs[k]? = some b → cs[k]? = some c →
      p (a, c) = q (b, c)) : (as.zip cs).countP p = (bs.zip cs).countP q := by
  induction as generalizing bs cs with
  | nil =>
    obtain rfl := List.length_eq_zero_iff.mp hl.symm
    rfl
  | cons a as ih =>
    cases bs with
    | nil => cases hl
    | cons b bs =>
      cases cs with
      | nil => rfl
      | cons c cs =>
        have later := @ih bs cs (Nat.succ.inj hl) fun k => h (k + 1)
        rw [List.zip_cons_cons, List.zip_cons_cons, List.countP_cons, List.countP_cons, later,
          h 0 a b c rfl rfl rfl]

namespace StoredRule

/-- The rules under their names, each name that an earlier one has given anew, with their number. -/
def repaired (source : IdSource) (rules : List StoredRule) : List Rule × Nat × IdSource :=
  RuleSet.renameRepeated [] (nameAll source rules).2 (nameAll source rules).1

section

variable {source : IdSource} {rules : List StoredRule}

theorem repaired_policies (source : IdSource) (rules : List StoredRule) :
    (repaired source rules).1.map Rule.toPolicy = rules.map (·.policy) :=
  (RuleSet.renameRepeated_policies _ _ _).trans (nameAll_policies source rules)

theorem repaired_length (source : IdSource) (rules : List StoredRule) :
    (repaired source rules).1.length = rules.length := by
  have same := congrArg List.length (repaired_policies source rules)
  rwa [List.length_map, List.length_map] at same

theorem repaired_policy {k : Nat} {stored : StoredRule} {rule : Rule} (hk : rules[k]? = some stored)
    (hr : (repaired source rules).1[k]? = some rule) : rule.toPolicy = stored.policy := by
  have policies := congrArg (·[k]?) (repaired_policies source rules)
  simpa only [List.getElem?_map, hr, hk, Option.map_some, Option.some.injEq] using policies

theorem repaired_own {k : Nat} {stored : StoredRule} {id : RuleId} {rule : Rule}
    (hk : rules[k]? = some stored) (own : stored.id = some id)
    (hr : (repaired source rules).1[k]? = some rule)
    (unclaimed : id ∉ ((repaired source rules).1.take k).map (·.id)) : rule.id = id := by
  have given := nameAll_getElem? source rules k
  rw [hk, Option.map_some] at given
  simp only [named, own] at given
  rcases RuleSet.renameRepeated_getElem? [] (nameAll source rules).2 given with again | kept
  · exact absurd again unclaimed
  · cases hr.symm.trans kept
    rfl

variable (fresh : source.Fresh (repaired source rules).2.2.next (rules.filterMap (·.id)))
include fresh

theorem repaired_nodup : ((repaired source rules).1.map (·.id)).Nodup :=
  (RuleSet.renameRepeated_nodup (nameAll_fresh fresh)).1

theorem repaired_kept {k : Nat} {rule : StoredRule} (hk : rules[k]? = some rule)
    (unclaimed : ∀ id, rule.id = some id → ∀ other ∈ rules.take k, other.id ≠ some id) :
    (repaired source rules).1[k]? =
      some (rule.named (nameAll source (rules.take k)).2).1 := by
  have begun : source.Fresh (nameAll source rules).2.next (rules.filterMap (·.id)) := by
    refine fresh.until ?_
    rw [repaired, RuleSet.renameRepeated_source, IdSource.moved_next]
    exact Nat.le_add_right _ _
  have named : (nameAll source rules).1[k]? = _ := nameAll_getElem? source rules k
  rw [hk] at named
  exact RuleSet.renameRepeated_kept (nameAll_fresh fresh) named (named_new begun hk unclaimed)

/-- The rules that lose their id are those that repeat the id of an earlier one. -/
theorem repaired_id_iff {k : Nat} {stored : StoredRule} {id : RuleId} {rule : Rule}
    (hk : rules[k]? = some stored) (own : stored.id = some id)
    (hr : (repaired source rules).1[k]? = some rule) :
    rule.id = id ↔ ∀ other ∈ rules.take k, other.id ≠ some id := by
  constructor
  · rintro rfl other ho claimed
    obtain ⟨j, hj⟩ := List.mem_iff_getElem?.mp ho
    have taken := nameAll_getElem? source (rules.take k) j
    rw [hj, nameAll_take] at taken
    have earlier : rule.id ∈ ((nameAll source rules).1.take k).map (·.id) := by
      refine List.mem_map.mpr ⟨_, List.mem_of_getElem? taken, ?_⟩
      simp only [named, claimed]
      rfl
    have before := RuleSet.mem_renamed_take [] (nameAll source rules).2 earlier
    rw [List.nil_append, List.map_take] at before
    refine not_mem_take_of_nodup (repaired_nodup fresh) ?_ before
    rw [List.getElem?_map, hr]
    rfl
  · intro unclaimed
    have kept := repaired_kept fresh hk fun id' h => by
      rw [own] at h
      cases h
      exact unclaimed
    rw [kept, named, own] at hr
    cases hr
    rfl

theorem repaired_count :
    (repaired source rules).2.1 =
      (rules.zip (repaired source rules).1).countP fun p => p.1.id.any (· ≠ p.2.id) := by
  have length := congrArg List.length (nameAll_policies source rules)
  rw [List.length_map, List.length_map] at length
  refine (RuleSet.renameRepeated_count (nameAll_fresh fresh)).trans (countP_zip_congr length ?_)
  intro k given stored rule hg hk hr
  have named := nameAll_getElem? source rules k
  rw [hk, hg] at named
  cases named
  cases own : stored.id with
  | none =>
    have kept := repaired_kept fresh hk fun id h => by
      rw [own] at h
      cases h
    cases hr.symm.trans kept
    simp
  | some id =>
    obtain ⟨policy, given⟩ := rule
    obtain rfl : policy = stored.policy := repaired_policy hk hr
    simp [StoredRule.named, own, Policy.named]

end

end StoredRule

end SieveRules
