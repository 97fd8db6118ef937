import SieveRules.Proofs.Generation
import SieveRules.RuleSet.Recovery
/-!
What is left of a filter when its script is read again. Tests that have no way back take their rule
with them, actions that have none are dropped alone, and an empty field comes back as its default.
-/

namespace SieveRules

open Text

def comparatorInFull (name : String) : String :=
  if name = "" then "i;ascii-casemap" else name

namespace Condition

/-- The condition has a way back from its test. -/
def isRecoverable : Condition → Bool
  | header .. | address .. | present .. | always | never => true
  | envelope .. | size .. | body .. => false

/-- The condition with its defaults in place of what it leaves empty. -/
def filled : Condition → Condition
  | header comparator m name keys =>
    header (comparatorInFull comparator) m name (listInFull keys)
  | address comparator m part name keys =>
    address (comparatorInFull comparator) m part name (listInFull keys)
  | present names => present (listInFull names)
  | condition => condition

end Condition

theorem filter_ne_eq_ite {α : Type} [DecidableEq α] (value : Option α) (void : α) :
    value.filter (· ≠ void) = if value = some void then none else value := by
  cases value with
  | none => rfl
  | some a => by_cases h : a = void <;> simp [Option.filter, h]

namespace Action

def isRecoverable : Action → Bool
  | addheader .. | deleteheader .. => false
  | _ => true

/-- The action with its defaults in place of what it leaves empty. -/
def filled : Action → Action
  | fileinto mailbox create copy flags =>
    fileinto (if mailbox = "" then "INBOX" else mailbox) create copy flags
  | vacation days subject message =>
    vacation (if days = some 0 then none else days) (if subject = some "" then none else subject)
      message
  | action => action

theorem filled_vacation (days : Option UInt32) (subject : Option String) (message : String) :
    (vacation days subject message).filled =
      vacation (days.filter (· ≠ 0)) (nonempty? subject) message := by
  rw [nonempty?, filter_ne_eq_ite, filter_ne_eq_ite]
  rfl

end Action

namespace Policy

def isRecoverable (policy : Policy) : Bool :=
  policy.conditions.all Condition.isRecoverable

/-- The rule as its branch gives it back. -/
def recovered (policy : Policy) : Policy where
  active := true
  combinator := if policy.conditions.length < 2 then .allof else policy.combinator
  conditions := if policy.conditions.isEmpty then [.always] else policy.conditions.map Condition.filled
  actions := (policy.actions.filter Action.isRecoverable).map Action.filled

end Policy

theorem named_condition (kind : ConditionKind) : Vocabulary.named? kind.word = some kind := by
  cases kind <;> decide

theorem named_action (kind : ActionKind) : Vocabulary.named? kind.word = some kind := by
  cases kind <;> decide

theorem named_combinator (c : Combinator) : Vocabulary.named? c.word = some c := by
  cases c <;> decide

theorem condition_no_combinator (kind : ConditionKind) :
    (Vocabulary.named? kind.word : Option Combinator) = none := by
  cases kind <;> decide

theorem named_match_type (m : MatchType) : Vocabulary.named? m.word = some m := by
  cases m <;> decide

theorem named_part (p : AddressPart) : Vocabulary.named? p.word = some p := by
  cases p <;> decide

theorem part_no_match_type (p : AddressPart) :
    (Vocabulary.named? p.word : Option MatchType) = none := by
  cases p <;> decide

namespace Argument

variable {valued : List String}

theorem units_plain {a : Argument} (h : ∀ name, a = .tag name → name ∉ valued)
    (rest : List Argument) : units valued (a :: rest) = ⟨a, none⟩ :: units valued rest := by
  cases rest with
  | nil => simp [units]
  | cons b rest =>
    cases a with
    | tag name => simp [units, h name rfl]
    | _ => simp [units]

theorem units_valued {name : String} (h : name ∈ valued) (value : Argument)
    (rest : List Argument) :
    units valued (.tag name :: value :: rest) = ⟨.tag name, some value⟩ :: units valued rest := by
  simp [units, h]

end Argument

namespace TestArguments

def collectFrom (takesPart : Bool) (found : TestArguments) (arguments : List Argument) :
    Except ArgumentFault TestArguments :=
  (Argument.units [":comparator"] arguments).foldlM (add takesPart) found

variable {takesPart : Bool} {found : TestArguments} {rest : List Argument}

theorem collectFrom_match_type (m : MatchType) :
    collectFrom takesPart found (.tag m.word :: rest) =
      collectFrom takesPart { found with matchType := some m } rest := by
  have plain : m.word ∉ [":comparator"] := by cases m <;> decide
  have other : m.word ≠ ":comparator" := by simpa using plain
  have taken : add takesPart found ⟨.tag m.word, none⟩ =
      .ok { found with matchType := some m } := by
    simp [add, other, named_match_type]
  rw [collectFrom, Argument.units_plain (by rintro _ ⟨⟩; exact plain), List.foldlM_cons, taken]
  rfl

theorem collectFrom_part (p : AddressPart) :
    collectFrom true found (.tag p.word :: rest) =
      collectFrom true { found with part := some p } rest := by
  have plain : p.word ∉ [":comparator"] := by cases p <;> decide
  have other : p.word ≠ ":comparator" := by simpa using plain
  have taken : add true found ⟨.tag p.word, none⟩ = .ok { found with part := some p } := by
    simp [add, other, part_no_match_type, named_part]
  rw [collectFrom, Argument.units_plain (by rintro _ ⟨⟩; exact plain), List.foldlM_cons, taken]
  rfl

theorem collectFrom_comparator (name : String) :
    collectFrom takesPart found (comparatorArguments name ++ rest) =
      collectFrom takesPart
        { found with comparator := if isExplicitComparator name then some name else found.comparator }
        rest := by
  unfold comparatorArguments
  split
  · have taken : add takesPart found ⟨.tag ":comparator", some (.string name)⟩ =
        .ok { found with comparator := some name } := by
      simp [add]
    rw [List.cons_append, List.singleton_append, collectFrom,
      Argument.units_valued (List.mem_singleton.mpr rfl), List.foldlM_cons, taken]
    rfl
  · rfl

theorem collectFrom_strings {a : Argument} {items : List String} (ha : a.strings? = some items) :
    collectFrom takesPart found (a :: rest) =
      collectFrom takesPart { found with positional := found.positional ++ [items] } rest := by
  have plain : ∀ name, a = .tag name → name ∉ [":comparator"] := by
    rintro name rfl
    cases ha
  have taken : add takesPart found ⟨a, none⟩ =
      .ok { found with positional := found.positional ++ [items] } := by
    cases a with
    | string => cases ha; rfl
    | stringList => cases ha; rfl
    | number => cases ha
    | tag => cases ha
  rw [collectFrom, Argument.units_plain plain, List.foldlM_cons, taken]
  rfl

theorem collectFrom_nil : collectFrom takesPart found [] = .ok found := rfl

end TestArguments

theorem comparator_filled (name : String) :
    (if isExplicitComparator name then some name else none).getD defaultComparator =
      comparatorInFull name := by
  unfold comparatorInFull
  by_cases he : name = ""
  · subst he
    rfl
  · by_cases hd : name = defaultComparator
    · subst hd
      rfl
    · simp [isExplicitComparator, he, hd]

theorem keys_strings (keys : List String) :
    (keysArgument keys).strings? = some (listInFull keys) :=
  congrArg Argument.strings? (keysArgument_eq keys)

namespace Condition

theorem header_arguments_read (comparator name : String) (m : MatchType) (keys : List String) :
    TestArguments.collect false (header comparator m name keys).toArguments =
      .ok ⟨some m, if isExplicitComparator comparator then some comparator else none, none,
        [[name], listInFull keys]⟩ := by
  change TestArguments.collectFrom false .empty _ = _
  rw [toArguments, List.cons_append, TestArguments.collectFrom_match_type,
    TestArguments.collectFrom_comparator, TestArguments.collectFrom_strings rfl,
    TestArguments.collectFrom_strings (keys_strings keys), TestArguments.collectFrom_nil]
  rfl

theorem address_arguments_read (comparator name : String) (m : MatchType) (part : AddressPart)
    (keys : List String) :
    TestArguments.collect true (address comparator m part name keys).toArguments =
      .ok ⟨some m, if isExplicitComparator comparator then some comparator else none, some part,
        [[name], listInFull keys]⟩ := by
  change TestArguments.collectFrom true .empty _ = _
  rw [toArguments, List.cons_append, List.cons_append, TestArguments.collectFrom_match_type,
    TestArguments.collectFrom_part, TestArguments.collectFrom_comparator,
    TestArguments.collectFrom_strings rfl, TestArguments.collectFrom_strings (keys_strings keys),
    TestArguments.collectFrom_nil]
  rfl

theorem present_arguments_read (names : List String) :
    TestArguments.collect false (present names).toArguments =
      .ok ⟨none, none, none, [listInFull names]⟩ := by
  rcases names with _ | ⟨name, _ | ⟨next, rest⟩⟩
  · rfl
  · rfl
  · rfl

theorem conditionOf_toArguments {condition : Condition} (h : condition.isRecoverable = true) :
    Test.conditionOf condition.toArguments condition.kind = .ok (some condition.filled) := by
  cases condition with
  | header comparator m name keys =>
    simp only [kind, Test.conditionOf, header_arguments_read]
    change Except.ok (some (header _ m name _)) = _
    rw [TestArguments.comparatorOrDefault, comparator_filled]
    rfl
  | address comparator m part name keys =>
    simp only [kind, Test.conditionOf, address_arguments_read]
    change Except.ok (some (address _ m part name _)) = _
    rw [TestArguments.comparatorOrDefault, comparator_filled]
    rfl
  | present names =>
    simp only [kind, Test.conditionOf, present_arguments_read]
    rfl
  | always => rfl
  | never => rfl
  | envelope | size | body => cases h

/-- A test that has a way back gives its condition back, with the defaults filled in. -/
theorem toCondition_toTest {condition : Condition} (h : condition.isRecoverable = true) :
    condition.toTest.toCondition = .ok condition.filled := by
  simp [Test.toCondition, toTest, named_condition, conditionOf_toArguments h]

theorem toCondition_unsupported {condition : Condition} (h : condition.isRecoverable = false) :
    condition.toTest.toCondition = .error (.test condition.kind.word) := by
  cases condition with
  | envelope | size | body =>
    simp only [Test.toCondition, toTest, named_condition, kind, Test.conditionOf, List.isEmpty_nil,
      Bool.not_true, Bool.false_eq_true, if_false]
    rfl
  | _ => cases h

end Condition

theorem word32_toString (n : UInt32) : (Argument.number (toString n.toNat)).word32? = some n := by
  have nonempty : (toString n.toNat).toList.isEmpty = false := by
    rw [List.isEmpty_eq_false_iff]
    exact toString_nonempty _
  have small : n.toNat < UInt32.size := n.toNat_lt_size
  simp only [Argument.word32?, nonempty, toString_digits, decimal_toString, small]
  simp

namespace Action

theorem toAction_action (action : Action) :
    action.toCommand.toAction.1 = (Command.actionOf action.toArguments action.kind).1 := by
  simp only [Command.toAction, toCommand, named_action, Option.map_some]
  split
  · rename_i he
    rw [Option.some.inj he]
  · rename_i h
    cases ha : Command.actionOf action.toArguments action.kind with
    | mk found events =>
      cases found with
      | none => rfl
      | some found => exact absurd (congrArg some ha) (h found events)

/-- A command that has a way back gives its action back, with the defaults filled in. -/
theorem toAction_toCommand (action : Action) :
    action.toCommand.toAction.1 = if action.isRecoverable then some action.filled else none := by
  rw [toAction_action]
  cases action with
  | keep => rfl
  | discard => rfl
  | stop => rfl
  | addheader => rfl
  | deleteheader => rfl
  | reject reason => rfl
  | redirect address copy => cases copy <;> rfl
  | fileinto mailbox create copy flags => cases create <;> cases copy <;> cases flags <;> rfl
  | vacation days subject message =>
    rw [filled_vacation]
    change (Command.actionOf (toArguments _) .vacation).1 = some (vacation _ _ message)
    rw [toArguments]
    cases days.filter (· ≠ 0) with
    | none => cases nonempty? subject <;> rfl
    | some n =>
      have read : (some (Argument.number (toString n.toNat))).bind Argument.word32? = some n :=
        word32_toString n
      cases nonempty? subject with
      | none =>
        change some (vacation ((some (Argument.number _)).bind Argument.word32?) none message) = _
        rw [read]
      | some text =>
        change some (vacation ((some (Argument.number _)).bind Argument.word32?) (some text) message) = _
        rw [read]

theorem toCommand_not_branch (action : Action) : action.toCommand.isBranch = false := by
  have words : ∀ kind : ActionKind, decide (kind.word ∈ ["if", "elsif", "else"]) = false := by
    intro kind
    cases kind <;> decide
  exact words action.kind

theorem toActions_toCommand (actions : List Action) :
    (Command.toActions (actions.map toCommand)).1 =
      .ok ((actions.filter isRecoverable).map filled) := by
  induction actions with
  | nil => rfl
  | cons action rest ih =>
    have plain : (action.toCommand.block.isSome || action.toCommand.isBranch) = false := by
      rw [toCommand_not_branch]
      rfl
    rw [List.map_cons, Command.toActions, plain]
    simp only [Bool.false_eq_true, if_false, ih, toAction_toCommand, Except.map]
    by_cases h : action.isRecoverable = true
    · simp [h]
    · simp [h]

end Action

namespace Policy

theorem mapM_toCondition {conditions : List Condition}
    (h : conditions.all Condition.isRecoverable = true) :
    (conditions.map Condition.toTest).mapM Test.toCondition =
      .ok (conditions.map Condition.filled) := by
  induction conditions with
  | nil => rfl
  | cons condition rest ih =>
    simp only [List.all_cons, Bool.and_eq_true] at h
    rw [List.map_cons, List.mapM_cons, Condition.toCondition_toTest h.1, ih h.2]
    rfl

theorem mapM_unsupported {conditions : List Condition}
    (h : conditions.all Condition.isRecoverable = false) :
    ∃ reason, (conditions.map Condition.toTest).mapM Test.toCondition = .error reason := by
  induction conditions with
  | nil => cases h
  | cons condition rest ih =>
    rw [List.map_cons, List.mapM_cons]
    by_cases hc : condition.isRecoverable = true
    · rw [List.all_cons, hc, Bool.true_and] at h
      obtain ⟨reason, hr⟩ := ih h
      exact ⟨reason, by rw [Condition.toCondition_toTest hc, hr]; rfl⟩
    · rw [Condition.toCondition_unsupported (Bool.eq_false_iff.mpr hc)]
      exact ⟨_, rfl⟩

theorem toConditions_condition (condition : Condition) :
    condition.toTest.toConditions =
      condition.toTest.toCondition.map fun found => (.allof, [found]) := by
  simp only [Test.toConditions, Condition.toTest, condition_no_combinator]

theorem toConditions_combined (c : Combinator) (conditions : List Condition) :
    (⟨c.word, [], conditions.map Condition.toTest⟩ : Test).toConditions =
      ((conditions.map Condition.toTest).mapM Test.toCondition).map fun found => (c, found) := by
  simp only [Test.toConditions, named_combinator]

theorem toConditions_toTest {policy : Policy} (h : policy.isRecoverable = true) :
    policy.toTest.toConditions =
      .ok (policy.recovered.combinator, policy.recovered.conditions) := by
  obtain ⟨active, combinator, conditions, actions⟩ := policy
  rcases conditions with _ | ⟨condition, _ | ⟨next, rest⟩⟩
  · have always : Condition.always.isRecoverable = true := rfl
    simp only [toTest, toConditions_condition, Condition.toCondition_toTest always]
    rfl
  · have only : condition.isRecoverable = true := by simpa [isRecoverable] using h
    simp only [toTest, toConditions_condition, Condition.toCondition_toTest only]
    rfl
  · simp only [toTest, toConditions_combined, mapM_toCondition h]
    rfl

theorem toConditions_unsupported {policy : Policy} (h : policy.isRecoverable = false) :
    ∃ reason, policy.toTest.toConditions = .error reason := by
  obtain ⟨active, combinator, conditions, actions⟩ := policy
  rcases conditions with _ | ⟨condition, _ | ⟨next, rest⟩⟩
  · cases h
  · have only : condition.isRecoverable = false := by simpa [isRecoverable] using h
    simp only [toTest, toConditions_condition, Condition.toCondition_unsupported only]
    exact ⟨_, rfl⟩
  · obtain ⟨reason, hr⟩ := mapM_unsupported h
    simp only [toTest, toConditions_combined, hr]
    exact ⟨reason, rfl⟩

variable {keyword : String} {required : Bool} {block : Nat} {rest : List Command}

theorem recoverFrom_branch {command : Command} (hn : command.name ≠ "require")
    (hb : command.isBranch = true) :
    (Script.recoverFrom required block (command :: rest)).1 =
      command.toPolicy.1.toOption.toList ++ (Script.recoverFrom required (block + 1) rest).1 := by
  rw [Script.recoverFrom, if_neg hn, if_pos hb]
  rcases command.toPolicy with ⟨_ | policy, told⟩
  · rfl
  · rfl

theorem recoverFrom_toCommand (policy : Policy) (hk : keyword = "if" ∨ keyword = "elsif") :
    (Script.recoverFrom required block (policy.toCommand keyword :: rest)).1 =
      (if policy.isRecoverable then [policy.recovered] else []) ++
        (Script.recoverFrom required (block + 1) rest).1 := by
  have names : keyword ≠ "require" ∧ keyword ≠ "else" ∧ keyword ∈ ["if", "elsif", "else"] := by
    rcases hk with rfl | rfl <;> decide
  have branch : (policy.toCommand keyword).isBranch = true := by
    simpa [Command.isBranch, toCommand] using names.2.2
  have tested : (policy.toCommand keyword).branchConditions = policy.toTest.toConditions := by
    simp [Command.branchConditions, toCommand, names.2.1]
  rw [recoverFrom_branch names.1 branch]
  by_cases h : policy.isRecoverable = true
  · have outcome : (policy.toCommand keyword).toPolicy.1 = .ok policy.recovered := by
      simp only [Command.toPolicy, tested, toConditions_toTest h]
      change (Command.toActions (policy.actions.map Action.toCommand)).1.map _ = _
      rw [Action.toActions_toCommand]
      rfl
    simp [outcome, h, Except.toOption]
  · obtain ⟨reason, hr⟩ := toConditions_unsupported (Bool.eq_false_iff.mpr h)
    have outcome : (policy.toCommand keyword).toPolicy.1 = .error reason := by
      simp only [Command.toPolicy, tested, hr]
    simp [outcome, h, Except.toOption]

theorem recovered_cons (policy : Policy) (later : List Policy) :
    (if policy.isRecoverable then [policy.recovered] else []) ++
        (later.filter isRecoverable).map recovered =
      ((policy :: later).filter isRecoverable).map recovered := by
  by_cases h : policy.isRecoverable = true
  · simp [h]
  · simp [h]

theorem recoverFrom_elsif (policies : List Policy) :
    (Script.recoverFrom required block (policies.map (toCommand "elsif"))).1 =
      (policies.filter isRecoverable).map recovered := by
  induction policies generalizing block with
  | nil => rfl
  | cons policy later ih =>
    rw [List.map_cons, recoverFrom_toCommand policy (.inr rfl), ih]
    exact recovered_cons policy later

theorem recoverFrom_chain (policies : List Policy) :
    (Script.recoverFrom required block (chain policies)).1 =
      (policies.filter isRecoverable).map recovered := by
  cases policies with
  | nil => rfl
  | cons first later =>
    rw [chain, recoverFrom_toCommand first (.inl rfl), recoverFrom_elsif]
    exact recovered_cons first later

end Policy

/-- The extension that a required name switches on. -/
def requiredExtension (name : String) : String :=
  if "comparator-".toList.isPrefixOf name.toList then "comparator" else name

namespace CapabilitySet

theorem require_eq_setName (set : CapabilitySet) (name : String) :
    set.require name = set.setName (requiredExtension name) true := by
  unfold require requiredExtension
  split <;> rfl

theorem get?_foldl_require (names : List String) (set : CapabilitySet) (name : String) :
    (names.foldl require set).flags.get? name =
      if name ∈ names.map requiredExtension then some true else set.flags.get? name := by
  induction names generalizing set with
  | nil => simp
  | cons next rest ih =>
    rw [List.foldl_cons, ih, require_eq_setName, setName, Dictionary.get?_insert]
    by_cases hr : name ∈ rest.map requiredExtension
    · simp [hr]
    · by_cases hn : name = requiredExtension next
      · simp [hn]
      · simp [hr, hn]

end CapabilitySet

namespace RuleSet

theorem mem_requirement (set : RuleSet) (capability : Capability) (name : String) :
    name ∈ (set.requirement capability).map requiredExtension ↔ capability.word = name := by
  have own : ∀ word : String, requiredExtension word = word →
      (name ∈ [word].map requiredExtension ↔ word = name) := by
    intro word hw
    simp [hw, eq_comm]
  have comparators : ∀ names : List String,
      (names.map ("comparator-" ++ ·)).map requiredExtension = names.map fun _ => "comparator" := by
    intro names
    rw [List.map_map]
    apply List.map_congr_left
    intro word _
    simp [requiredExtension]
  cases capability with
  | comparator =>
    rw [requirement, comparators]
    simp [Capability.word, eq_comm]
  | _ => exact own _ (by decide)

theorem mem_requires (set : RuleSet) (name : String) :
    name ∈ set.requires.map requiredExtension ↔
      ∃ capability, set.extensions.isEnabled capability = true ∧ capability.word = name := by
  rw [requires, List.map_flatMap, List.mem_flatMap]
  constructor
  · rintro ⟨capability, hc, hn⟩
    exact ⟨capability, (List.mem_filter.mp hc).2, (set.mem_requirement capability name).mp hn⟩
  · rintro ⟨capability, hc, hn⟩
    have listed : capability ∈ set.extensions.enabled :=
      List.mem_filter.mpr ⟨Vocabulary.complete capability, hc⟩
    exact ⟨capability, listed, (set.mem_requirement capability name).mpr hn⟩

theorem chain_names {policies : List Policy} {command : Command}
    (hc : command ∈ Policy.chain policies) : command.name = "if" ∨ command.name = "elsif" := by
  cases policies with
  | nil => cases hc
  | cons first rest =>
    rcases List.mem_cons.mp hc with rfl | hc
    · exact .inl rfl
    · obtain ⟨policy, -, rfl⟩ := List.mem_map.mp hc
      exact .inr rfl

theorem toScript_extensions (set : RuleSet) :
    set.toScript.extensions = set.requires.foldl .require .empty := by
  have chained : (Policy.chain (set.activeRules.map Rule.toPolicy)).find? (·.name = "require") =
      none := by
    rw [List.find?_eq_none]
    intro command hc
    rcases chain_names hc with h | h <;> simp [h]
  unfold Script.extensions toScript requireCommands
  by_cases hr : set.requires = []
  · simp [hr, chained]
  · simp [hr, Command.requiredNames, Argument.strings?]

theorem toScript_policies (set : RuleSet) :
    (Script.recoverFrom false 0 set.toScript.commands).1 =
      ((set.activeRules.map Rule.toPolicy).filter Policy.isRecoverable).map Policy.recovered := by
  unfold toScript requireCommands
  split
  · exact Policy.recoverFrom_chain _
  · rw [List.singleton_append, Script.recoverFrom, if_pos rfl]
    exact Policy.recoverFrom_chain _

theorem toScript_branches (set : RuleSet) :
    set.toScript.commands.any Command.isBranch = !set.activeRules.isEmpty := by
  have required : set.requireCommands.any Command.isBranch = false := by
    unfold requireCommands
    split
    · rfl
    · rfl
  rw [toScript, List.any_append, required, Bool.false_or]
  cases set.activeRules with
  | nil => rfl
  | cons first rest => rfl

def recovered (set : RuleSet) : Outline where
  policies := ((set.activeRules.map Rule.toPolicy).filter Policy.isRecoverable).map Policy.recovered
  extensions := set.requires.foldl .require .empty

theorem parse_generate_outline {set : RuleSet} (h : set.Sized) :
    (Outline.parse set.generate).1 =
      if set.activeRules = [] then .error .noBlocks else .ok set.recovered := by
  rw [Outline.parse, parse_generate h]
  simp only [Script.outline, toScript_branches, toScript_extensions]
  cases hr : set.activeRules with
  | nil => rfl
  | cons first rest =>
    simp only [List.isEmpty_cons, Bool.not_false, if_true, toScript_policies, recovered, hr]
    rfl

theorem recovered_extension (set : RuleSet) (name : String) (on : Bool) :
    set.recovered.extensions.flags.get? name = some on ↔
      on = true ∧ ∃ capability, set.extensions.isEnabled capability = true ∧
        capability.word = name := by
  rw [recovered, CapabilitySet.get?_foldl_require, ← set.mem_requires name]
  split
  · rename_i enabled
    rw [Option.some.injEq, eq_comm]
    exact ⟨fun h => ⟨h, enabled⟩, fun h => h.1⟩
  · rename_i enabled
    constructor
    · intro h
      cases h
    · rintro ⟨-, h⟩
      exact absurd h enabled

theorem named_outline (outline : Outline) (source : IdSource) :
    (outline.named source).1.outline = outline := by
  obtain ⟨policies, extensions⟩ := outline
  simp [Outline.named, RuleSet.outline, RuleSet.policies, IdSource.nameAll_policies]

theorem parse_ok {text : String} {source : IdSource} {outline : Outline}
    (h : (Outline.parse text).1 = .ok outline) :
    ∃ parsed source', (parse text source).1 = .ok (parsed, source') ∧ parsed.outline = outline := by
  refine ⟨(outline.named source).1, (outline.named source).2, ?_, named_outline outline source⟩
  change (Outline.parse text).1.map _ = _
  rw [h]
  rfl

/-- Reading the script of a filter again gives back every active rule whose conditions all have a
way back, in order and with its defaults filled in, and the known extensions that are on. -/
theorem parse_generate_recovers (set : RuleSet) (source : IdSource) (h : set.Sized) :
    (set.activeRules = [] → (parse set.generate source).1 = .error .noBlocks) ∧
    (set.activeRules ≠ [] → ∃ parsed source', (parse set.generate source).1 = .ok (parsed, source') ∧
      parsed.policies =
        ((set.activeRules.map Rule.toPolicy).filter Policy.isRecoverable).map Policy.recovered ∧
      ∀ name on, parsed.extensions.flags.get? name = some on ↔
        on = true ∧ ∃ capability, set.extensions.isEnabled capability = true ∧
          capability.word = name) := by
  constructor
  · intro none
    change (Outline.parse set.generate).1.map _ = _
    rw [parse_generate_outline h, if_pos none]
    rfl
  · intro some
    have outlined : (Outline.parse set.generate).1 = .ok set.recovered := by
      rw [parse_generate_outline h, if_neg some]
    obtain ⟨parsed, source', hp, ho⟩ := @parse_ok _ source _ outlined
    refine ⟨parsed, source', hp, congrArg Outline.policies ho, ?_⟩
    intro name on
    have extensions : parsed.extensions = set.recovered.extensions :=
      congrArg Outline.extensions ho
    rw [extensions]
    exact set.recovered_extension name on

/-- A rule that comes back changed, one that is switched off, and one that does not come back. -/
def patchy : RuleSet :=
  ⟨[⟨⟨true, .anyof, [.header "" .contains "Subject" []],
      [.fileinto "" false true ["\\Seen"], .addheader "X" "1" false,
        .vacation (some 0) (some "") "\"gone\"", .vacation (some 7) (some "Away") ""]⟩, ⟨"id_1"⟩⟩,
    ⟨⟨false, .allof, [], [.keep]⟩, ⟨"id_2"⟩⟩,
    ⟨⟨true, .allof, [.present ["List-Id"], .size .larger "1M"], [.discard]⟩, ⟨"id_3"⟩⟩],
    .standard⟩

theorem patchy_recovers : patchy.Sized ∧ patchy.activeRules ≠ [] ∧
    ∃ parsed source', (parse patchy.generate (.startingAt 1)).1 = .ok (parsed, source') ∧
      parsed.policies = [⟨true, .allof, [.header "i;ascii-casemap" .contains "Subject" [""]],
        [.fileinto "INBOX" false true ["\\Seen"], .vacation none none "\"gone\"",
          .vacation (some 7) (some "Away") ""]⟩] ∧
      ∀ name on, parsed.extensions.flags.get? name = some on ↔ on = true ∧ name = "fileinto" := by
  have sized : patchy.Sized := by decide
  have active : patchy.activeRules ≠ [] := by decide
  have enabled : ∀ capability : Capability,
      patchy.extensions.isEnabled capability = true ↔ capability = .fileinto := by
    intro capability
    cases capability <;> decide
  obtain ⟨parsed, source', hp, hr, extensions⟩ :=
    (parse_generate_recovers patchy (.startingAt 1) sized).2 active
  refine ⟨sized, active, parsed, source', hp, hr.trans (by decide), ?_⟩
  intro name on
  rw [extensions]
  simp [enabled, Capability.word, eq_comm]

end RuleSet

end SieveRules
