import SieveRules.Proofs.Recovery
import SieveRules.Proofs.Steps
/-!
Reading a script and writing it again settles after one round. Every filter that is read from a
script is of a form in which a further round only fills in defaults, and defaults are written the
same whether they are filled in or left open.
-/

namespace SieveRules

/-- The policy is one that is read from a branch: switched on, and in whole recoverable. -/
structure Policy.Recoverable (policy : Policy) : Prop where
  active : policy.active = true
  conditions : ∀ condition ∈ policy.conditions, condition.isRecoverable = true
  actions : ∀ action ∈ policy.actions, action.isRecoverable = true

namespace Test

theorem conditionOf_recoverable {arguments : List Argument} {kind : ConditionKind}
    {condition : Condition} (h : conditionOf arguments kind = .ok (some condition)) :
    condition.isRecoverable = true := by
  cases kind with
  | header | address =>
    obtain ⟨found, -, h⟩ := except_bind_ok h
    obtain ⟨nameAndKeys, -, h⟩ := except_bind_ok h
    cases h
    rfl
  | present =>
    obtain ⟨found, -, h⟩ := except_bind_ok h
    by_cases hc : (found.matchType.isSome || found.comparator.isSome) = true
    · rw [if_pos hc] at h
      cases h
    · rw [if_neg hc] at h
      dsimp only at h
      split at h
      · cases h
        rfl
      · cases h
  | always | never =>
    simp only [conditionOf] at h
    split at h
    · cases h
      rfl
    · cases h
  | envelope | size | body => cases h

theorem toCondition_recoverable {test : Test} {condition : Condition}
    (h : test.toCondition = .ok condition) : condition.isRecoverable = true := by
  unfold toCondition at h
  split at h
  · cases h
  · split at h
    · cases h
    · split at h
      · cases h
      · cases h
      · rename_i found hc
        cases h
        exact conditionOf_recoverable hc

theorem toConditions_recoverable {test : Test} {combinator : Combinator}
    {conditions : List Condition} (h : test.toConditions = .ok (combinator, conditions)) :
    ∀ condition ∈ conditions, condition.isRecoverable = true := by
  intro condition hc
  unfold toConditions at h
  split at h
  · obtain ⟨found, hf, h⟩ := except_map_ok h
    cases h
    obtain ⟨t, -, ht⟩ := mapM_ok_mem hf condition hc
    exact toCondition_recoverable ht
  · obtain ⟨found, hf, h⟩ := except_map_ok h
    cases h
    obtain rfl := List.mem_singleton.mp hc
    exact toCondition_recoverable hf

end Test

namespace Command

theorem branchConditions_recoverable {command : Command} {combinator : Combinator}
    {conditions : List Condition} (h : command.branchConditions = .ok (combinator, conditions)) :
    ∀ condition ∈ conditions, condition.isRecoverable = true := by
  unfold branchConditions at h
  split at h
  · cases h
    intro condition hc
    obtain rfl := List.mem_singleton.mp hc
    rfl
  · split at h
    · exact Test.toConditions_recoverable h
    · cases h

theorem actionOf_recoverable {arguments : List Argument} {kind : ActionKind} {action : Action}
    (h : (actionOf arguments kind).1 = some action) : action.isRecoverable = true := by
  cases kind <;> cases h <;> rfl

theorem toAction_recoverable {command : Command} {action : Action}
    (h : command.toAction.1 = some action) : action.isRecoverable = true := by
  unfold toAction at h
  split at h
  · rename_i found events hf
    cases h
    obtain ⟨kind, -, hk⟩ := Option.map_eq_some_iff.mp hf
    exact actionOf_recoverable (congrArg Prod.fst hk)
  · cases h

theorem toActions_recoverable {commands : List Command} {actions : List Action}
    (h : (toActions commands).1 = .ok actions) :
    ∀ action ∈ actions, action.isRecoverable = true := by
  induction commands generalizing actions with
  | nil =>
    cases h
    intro action ha
    cases ha
  | cons command rest ih =>
    unfold toActions at h
    split at h
    · cases h
    · obtain ⟨later, hl, rfl⟩ := except_map_ok h
      intro action ha
      rcases List.mem_append.mp ha with ha | ha
      · exact toAction_recoverable (Option.mem_toList.mp ha)
      · exact ih hl action ha

theorem toPolicy_recoverable {command : Command} {policy : Policy}
    (h : command.toPolicy.1 = .ok policy) : policy.Recoverable := by
  unfold toPolicy at h
  split at h
  · cases h
  · rename_i combinator conditions hc
    obtain ⟨actions, ha, rfl⟩ := except_map_ok h
    exact ⟨rfl, branchConditions_recoverable hc, toActions_recoverable ha⟩

end Command

theorem Script.recoverFrom_recoverable {required : Bool} {block : Nat} (commands : List Command) :
    ∀ policy ∈ (Script.recoverFrom required block commands).1, policy.Recoverable := by
  induction commands generalizing required block with
  | nil =>
    intro policy hp
    cases hp
  | cons command rest ih =>
    by_cases hn : command.name = "require"
    · rw [recoverFrom, if_pos hn]
      exact ih
    · by_cases hb : command.isBranch = true
      · rw [Policy.recoverFrom_branch hn hb]
        intro policy hp
        rcases List.mem_append.mp hp with hp | hp
        · cases hf : command.toPolicy.1 with
          | error => simp [hf, Except.toOption] at hp
          | ok found =>
            obtain rfl : policy = found := by simpa [hf, Except.toOption] using hp
            exact Command.toPolicy_recoverable hf
        · exact ih policy hp
      · rw [recoverFrom, if_neg hn, if_neg hb]
        exact ih

theorem Outline.parse_recoverable {text : String} {outline : Outline}
    (h : (Outline.parse text).1 = .ok outline) :
    ∀ policy ∈ outline.policies, policy.Recoverable := by
  unfold Outline.parse at h
  split at h
  · cases h
  · rename_i script _
    unfold Script.outline at h
    split at h
    · rename_i policies events hr
      split at h
      · cases h
        have all := @Script.recoverFrom_recoverable false 0 script.commands
        rwa [hr] at all
      · cases h

theorem orDefault_filled (text default : String) :
    orDefault (if text = "" then default else text) default = orDefault text default := by
  unfold orDefault
  by_cases h : text = ""
  · simp [h]
  · simp [h]

/-- What is alike for no comparator and for the default one is alike once it is filled in. -/
theorem comparatorInFull_alike {α : Type} {f : String → α} (h : f "i;ascii-casemap" = f "")
    (name : String) : f (comparatorInFull name) = f name := by
  unfold comparatorInFull
  split
  · rename_i empty
    rw [empty, h]
  · rfl

theorem comparatorArguments_filled (name : String) :
    comparatorArguments (comparatorInFull name) = comparatorArguments name :=
  comparatorInFull_alike rfl name

theorem keysArgument_filled (keys : List String) :
    keysArgument (listInFull keys) = keysArgument keys := by
  cases keys <;> rfl

namespace Condition

theorem toTest_filled (condition : Condition) : condition.filled.toTest = condition.toTest := by
  cases condition with
  | header comparator m name keys =>
    simp only [filled, toTest, kind, toArguments, comparatorArguments_filled, keysArgument_filled]
  | address comparator m part name keys =>
    simp only [filled, toTest, kind, toArguments, comparatorArguments_filled, keysArgument_filled]
  | present names => cases names <;> rfl
  | _ => rfl

theorem explicit_comparator_filled (condition : Condition) :
    condition.filled.comparator?.filter isExplicitComparator =
      condition.comparator?.filter isExplicitComparator := by
  have named (name : String) : (some (comparatorInFull name)).filter isExplicitComparator =
      (some name).filter isExplicitComparator :=
    comparatorInFull_alike (f := fun name => (some name).filter isExplicitComparator) rfl name
  cases condition with
  | header comparator => exact named comparator
  | address comparator => exact named comparator
  | _ => rfl

theorem comparators_filled (conditions : List Condition) :
    ((conditions.map filled).filterMap comparator?).filter isExplicitComparator =
      (conditions.filterMap comparator?).filter isExplicitComparator := by
  rw [List.filterMap_map, List.filter_filterMap, List.filter_filterMap]
  congr 1
  funext condition
  exact explicit_comparator_filled condition

end Condition

namespace Action

theorem toCommand_filled (action : Action) : action.filled.toCommand = action.toCommand := by
  cases action with
  | fileinto mailbox create copy flags =>
    simp only [filled, toCommand, kind, toArguments, orDefault_filled]
  | vacation days subject message =>
    rw [filled_vacation]
    simp only [toCommand, kind, toArguments, nonempty?, Option.filter_filter, Bool.and_self]
  | _ => rfl

theorem no_comparator {action : Action} (h : action.isRecoverable = true) :
    action.comparator? = none := by
  cases action <;> first | rfl | cases h

end Action

namespace Policy

theorem recovered_actions {policy : Policy} (h : policy.Recoverable) :
    policy.recovered.actions = policy.actions.map Action.filled := by
  rw [recovered, List.filter_eq_self.mpr h.actions]

theorem toTest_recovered (policy : Policy) : policy.recovered.toTest = policy.toTest := by
  obtain ⟨active, combinator, conditions, actions⟩ := policy
  rcases conditions with _ | ⟨condition, _ | ⟨next, rest⟩⟩
  · rfl
  · exact condition.toTest_filled
  · have several : ¬ rest.length + 1 + 1 < 2 := by omega
    simp [recovered, toTest, Condition.toTest_filled, several]

theorem toCommand_recovered {policy : Policy} (h : policy.Recoverable) (keyword : String) :
    policy.recovered.toCommand keyword = policy.toCommand keyword := by
  have actions : policy.recovered.actions.map Action.toCommand =
      policy.actions.map Action.toCommand := by
    rw [recovered_actions h, List.map_map]
    exact List.map_congr_left fun action _ => action.toCommand_filled
  simp only [toCommand, toTest_recovered, actions]

theorem chain_recovered {policies : List Policy} (h : ∀ policy ∈ policies, policy.Recoverable) :
    chain (policies.map recovered) = chain policies := by
  cases policies with
  | nil => rfl
  | cons first rest =>
    have later : (rest.map recovered).map (toCommand "elsif") = rest.map (toCommand "elsif") := by
      rw [List.map_map]
      apply List.map_congr_left
      intro policy hp
      exact toCommand_recovered (h policy (List.mem_cons_of_mem _ hp)) "elsif"
    rw [List.map_cons, chain, chain, later, toCommand_recovered (h first List.mem_cons_self)]

theorem comparators_recovered {policy : Policy} (h : policy.Recoverable) :
    policy.recovered.comparators = policy.comparators := by
  have conditions : (policy.recovered.conditions.filterMap Condition.comparator?).filter
      isExplicitComparator =
        (policy.conditions.filterMap Condition.comparator?).filter isExplicitComparator := by
    unfold recovered
    cases policy.conditions with
    | nil => rfl
    | cons condition rest => exact Condition.comparators_filled (condition :: rest)
  have none_before : policy.actions.filterMap Action.comparator? = [] := by
    rw [List.filterMap_eq_nil_iff]
    intro action ha
    exact Action.no_comparator (h.actions action ha)
  have none_after : policy.recovered.actions.filterMap Action.comparator? = [] := by
    rw [recovered_actions h, List.filterMap_map, List.filterMap_eq_nil_iff]
    intro action ha
    cases action <;> first | rfl | cases h.actions _ ha
  rw [comparators, comparators, none_before, none_after, List.filter_append, List.filter_append,
    conditions]

end Policy

namespace RuleSet

def Recoverable (set : RuleSet) : Prop :=
  ∀ rule ∈ set.rules, rule.toPolicy.Recoverable

theorem Recoverable.activeRules {set : RuleSet} (h : set.Recoverable) :
    set.activeRules = set.rules := by
  apply List.filter_eq_self.mpr
  intro rule hr
  exact (h rule hr).active

theorem Recoverable.sized {set : RuleSet} (h : set.Recoverable) : set.Sized := by
  intro rule hr condition hc
  rw [h.activeRules] at hr
  have recoverable := (h rule hr).conditions condition hc
  cases condition <;> first | rfl | cases recoverable

theorem Recoverable.recovered_policies {set : RuleSet} (h : set.Recoverable) :
    set.recovered.policies = set.policies.map Policy.recovered := by
  have kept : (set.rules.map Rule.toPolicy).filter Policy.isRecoverable = set.policies := by
    apply List.filter_eq_self.mpr
    intro policy hp
    obtain ⟨rule, hr, rfl⟩ := List.mem_map.mp hp
    exact List.all_eq_true.mpr (h rule hr).conditions
  rw [recovered, h.activeRules, kept]

theorem usedComparators_eq {set : RuleSet} (h : set.Recoverable) :
    set.usedComparators = (set.policies.flatMap Policy.comparators).eraseDups := by
  rw [usedComparators, h.activeRules, policies, List.flatMap_map]

theorem enabled_recovered (set : RuleSet) :
    set.recovered.extensions.enabled = set.extensions.enabled := by
  unfold CapabilitySet.enabled
  congr 1
  funext capability
  have listed := set.recovered_extension capability.word
  cases he : set.extensions.isEnabled capability with
  | true =>
    have on := (listed true).mpr ⟨rfl, capability, he, rfl⟩
    simp [CapabilitySet.isEnabled, CapabilitySet.isEnabledName, on]
  | false =>
    have off : set.recovered.extensions.flags.get? capability.word = none := by
      rw [Option.eq_none_iff_forall_not_mem]
      intro on h
      obtain ⟨-, other, ho, hw⟩ := (listed on).mp h
      obtain rfl : other = capability := Vocabulary.word_injective hw
      simp [he] at ho
    simp [CapabilitySet.isEnabled, CapabilitySet.isEnabledName, off]

section

variable {set parsed : RuleSet} (hs : set.Recoverable) (ho : parsed.outline = set.recovered)
  (hp : parsed.Recoverable)

include hs ho

theorem policies_recovered : parsed.policies = set.policies.map Policy.recovered := by
  rw [← hs.recovered_policies, ← ho]
  rfl

include hp

theorem requires_recovered : parsed.requires = set.requires := by
  have enabled : parsed.extensions.enabled = set.extensions.enabled := by
    rw [← set.enabled_recovered, ← ho]
    rfl
  have used : parsed.usedComparators = set.usedComparators := by
    have comparators : set.policies.map (Policy.comparators ∘ Policy.recovered) =
        set.policies.map Policy.comparators := by
      apply List.map_congr_left
      intro policy hm
      obtain ⟨rule, hr, rfl⟩ := List.mem_map.mp hm
      exact Policy.comparators_recovered (hs rule hr)
    rw [usedComparators_eq hp, usedComparators_eq hs, policies_recovered hs ho, List.flatMap_def,
      List.map_map, comparators, ← List.flatMap_def]
  unfold requires
  rw [enabled]
  congr 1
  funext capability
  cases capability with
  | comparator => rw [requirement, requirement, used]
  | _ => rfl

/-- The filter that comes back is written like the one it comes from. -/
theorem generate_recovered : parsed.generate = set.generate := by
  have all : ∀ policy ∈ set.policies, policy.Recoverable := by
    intro policy hm
    obtain ⟨rule, hr, rfl⟩ := List.mem_map.mp hm
    exact hs rule hr
  have chains : Policy.chain parsed.policies = Policy.chain set.policies := by
    rw [policies_recovered hs ho, Policy.chain_recovered all]
  unfold generate toScript requireCommands
  rw [requires_recovered hs ho hp, hp.activeRules, hs.activeRules]
  exact congrArg (fun branches => (Script.mk (_ ++ branches)).render) chains

end

theorem outline_of_parse {text : String} {source source' : IdSource} {set : RuleSet}
    (h : (parse text source).1 = .ok (set, source')) : (Outline.parse text).1 = .ok set.outline := by
  change (Outline.parse text).1.map (·.named source) = _ at h
  obtain ⟨outline, ho, hn⟩ := except_map_ok h
  rw [ho, ← named_outline outline source, hn]

theorem recoverable_of_parse {text : String} {source source' : IdSource} {set : RuleSet}
    (h : (parse text source).1 = .ok (set, source')) : set.Recoverable := by
  intro rule hr
  exact Outline.parse_recoverable (outline_of_parse h) rule.toPolicy (List.mem_map_of_mem hr)

/-- A filter that is read from some text settles: its script holds it with its defaults filled in,
which is written as the same script, and reading this once more changes nothing but names. -/
theorem regeneration_settles (text : String) (source source' : IdSource) (set : RuleSet)
    (h : (parse text source).1 = .ok (set, source')) (hr : set.rules ≠ []) (source₁ : IdSource) :
    ∃ first source₁', (parse set.generate source₁).1 = .ok (first, source₁') ∧
      first.generate = set.generate ∧
      ∀ source₂, ∃ second source₂', (parse first.generate source₂).1 = .ok (second, source₂') ∧
        second.outline = first.outline := by
  have recoverable := recoverable_of_parse h
  have active : set.activeRules ≠ [] := by
    rwa [recoverable.activeRules]
  have outlined : (Outline.parse set.generate).1 = .ok set.recovered := by
    rw [parse_generate_outline recoverable.sized, if_neg active]
  obtain ⟨first, source₁', hf, ho⟩ := @parse_ok _ source₁ _ outlined
  have same := generate_recovered recoverable ho (recoverable_of_parse hf)
  refine ⟨first, source₁', hf, same, ?_⟩
  intro source₂
  rw [same, ho]
  exact parse_ok outlined

/-- A script that leaves open what can be left open. -/
def sparse : String :=
  "require [\"x-own\", \"comparator-i;octet\"];\n" ++
    "if anyof (header :comparator \"\" \"Subject\" []) \x7b fileinto \"\"; \x7d"

theorem sparse_settles :
    ∃ set source', (parse sparse (.startingAt 1)).1 = .ok (set, source') ∧ set.rules ≠ [] ∧
      ∃ first source₁', (parse set.generate (.startingAt 2)).1 = .ok (first, source₁') ∧
        first.generate = set.generate ∧
        ∀ source₂, ∃ second source₂', (parse first.generate source₂).1 = .ok (second, source₂') ∧
          second.outline = first.outline := by
  have found : (Outline.parse sparse).1.toOption = some
      ⟨[⟨true, .anyof, [.header "" .is "Subject" []], [.fileinto "" false false []]⟩],
        ["x-own", "comparator-i;octet"].foldl .require .empty⟩ := by
    decide +kernel
  have outlined := except_ok_of_toOption found
  obtain ⟨set, source', hs, ho⟩ := @parse_ok _ (.startingAt 1) _ outlined
  have nonempty : set.rules ≠ [] := by
    intro none
    have held := congrArg Outline.policies ho
    simp [outline, policies, none] at held
  exact ⟨set, source', hs, nonempty,
    regeneration_settles sparse (.startingAt 1) source' set hs nonempty (.startingAt 2)⟩

end RuleSet

end SieveRules
