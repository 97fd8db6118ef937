import SieveRules.Proofs.Recovery
import SieveRules.RuleSet.Warning
/-!
Advice on extensions, held against the script. Where the extension of an action or a test is
checked, there is a warning exactly if the script that is generated has a command or a test of that
name and does not require the extension.
-/

namespace SieveRules

/-- The test, or one of those it combines, has this name. -/
inductive Test.Uses (name : String) : Test → Prop where
  | here {test : Test} (h : test.name = name) : Uses name test
  | inner {test t : Test} (ht : t ∈ test.tests) (h : Uses name t) : Uses name test

/-- The command stands in the block of another one, at some depth. -/
inductive Command.Inside (command : Command) : Command → Prop where
  | here {outer : Command} {body : List Command} (hb : outer.block = some body)
      (hc : command ∈ body) : Inside command outer
  | deeper {outer c : Command} {body : List Command} (hb : outer.block = some body)
      (hc : c ∈ body) (h : Inside command c) : Inside command outer

namespace Script

/-- A command of this name stands in a block of the script. -/
def Performs (script : Script) (name : String) : Prop :=
  ∃ outer ∈ script.commands, ∃ command : Command, command.Inside outer ∧ command.name = name

/-- A command of the script, in a block or not, has a test of this name. -/
def Asks (script : Script) (name : String) : Prop :=
  ∃ outer ∈ script.commands, ∃ command : Command, (command = outer ∨ command.Inside outer) ∧
    ∃ test ∈ command.tests, test.Uses name

/-- A requirement of the script lists this name. -/
def Requires (script : Script) (name : String) : Prop :=
  ∃ command ∈ script.commands, command.name = "require" ∧
    ∃ argument ∈ command.arguments, ∃ names, argument.strings? = some names ∧ name ∈ names

end Script

namespace Warning

def isOfExtension : Warning → Bool
  | actionNotEnabled _ | testNotEnabled _ => true
  | _ => false

end Warning

theorem mem_warningsFrom {α : Type} {warnings : Nat → α → List Warning} {first : Nat}
    {items : List α} {warning : Warning} (h : warning ∈ warningsFrom warnings first items) :
    ∃ index, ∃ item ∈ items, warning ∈ warnings index item := by
  induction items generalizing first with
  | nil => cases h
  | cons item rest ih =>
    rcases List.mem_append.mp h with h | h
    · exact ⟨first, item, List.mem_cons_self, h⟩
    · obtain ⟨index, other, ho, hw⟩ := ih h
      exact ⟨index, other, List.mem_cons_of_mem _ ho, hw⟩

theorem eq_of_mem_if {asked : Prop} [Decidable asked] {warning given : Warning}
    (h : warning ∈ if asked then [given] else []) : warning = given := by
  split at h
  · exact List.mem_singleton.mp h
  · cases h

theorem Condition.warnings_local (rule index : Nat) (condition : Condition) :
    ∀ warning ∈ condition.warnings rule index, warning.isOfExtension = false := by
  intro warning hw
  unfold warnings at hw
  split at hw
  · rcases List.mem_append.mp hw with hw | hw
    · rw [eq_of_mem_if hw]
      rfl
    · rw [eq_of_mem_if hw]
      rfl
  · cases hw

theorem Action.warnings_local (rule index : Nat) (action : Action) :
    ∀ warning ∈ action.warnings rule index, warning.isOfExtension = false := by
  intro warning hw
  cases action with
  | fileinto | redirect =>
    rw [eq_of_mem_if hw]
    rfl
  | _ => cases hw

theorem Policy.warnings_local (index : Nat) (policy : Policy) :
    ∀ warning ∈ policy.warnings index, warning.isOfExtension = false := by
  intro warning hw
  simp only [warnings, List.mem_append] at hw
  rcases hw with ((hw | hw) | hw) | hw
  · rw [eq_of_mem_if hw]
    rfl
  · obtain ⟨place, condition, -, hw⟩ := mem_warningsFrom hw
    exact condition.warnings_local index place warning hw
  · rw [eq_of_mem_if hw]
    rfl
  · obtain ⟨place, action, -, hw⟩ := mem_warningsFrom hw
    exact action.warnings_local index place warning hw

namespace RuleSet

variable (set : RuleSet)

def undeclaredActions : List ActionKind :=
  checkedActions.filter fun kind => set.usesAction kind && !set.allows kind.capability?

def undeclaredTests : List ConditionKind :=
  checkedTests.filter fun kind => set.usesTest kind && !set.allows kind.capability?

/-- Of extensions, there is one warning for each kind that is checked, used and not allowed. -/
theorem validate_extensions : set.validate.filter Warning.isOfExtension =
    set.undeclaredActions.map .actionNotEnabled ++ set.undeclaredTests.map .testNotEnabled := by
  have presence : (if !set.rules.isEmpty && !set.hasActiveRules then [Warning.noActiveRules]
      else []).filter Warning.isOfExtension = [] := by
    split <;> rfl
  have places : (warningsFrom
      (fun index rule => if rule.active then rule.toPolicy.warnings index else []) 1
        set.rules).filter Warning.isOfExtension = [] := by
    rw [List.filter_eq_nil_iff]
    intro warning hw
    obtain ⟨index, rule, -, hw⟩ := mem_warningsFrom hw
    split at hw
    · rw [rule.toPolicy.warnings_local index warning hw]
      exact Bool.false_ne_true
    · cases hw
  have actions : (set.undeclaredActions.map Warning.actionNotEnabled).filter
      Warning.isOfExtension = set.undeclaredActions.map .actionNotEnabled := by
    rw [List.filter_eq_self]
    intro warning hw
    obtain ⟨kind, -, rfl⟩ := List.mem_map.mp hw
    rfl
  have tests : (set.undeclaredTests.map Warning.testNotEnabled).filter
      Warning.isOfExtension = set.undeclaredTests.map .testNotEnabled := by
    rw [List.filter_eq_self]
    intro warning hw
    obtain ⟨kind, -, rfl⟩ := List.mem_map.mp hw
    rfl
  change ((_ ++ _) ++ set.undeclaredActions.map _ ++ set.undeclaredTests.map _).filter _ = _
  rw [List.filter_append, List.filter_append, List.filter_append, presence, places, actions, tests]
  rfl

theorem mem_validate {warning : Warning} (h : warning.isOfExtension = true) :
    warning ∈ set.validate ↔
      warning ∈ set.undeclaredActions.map Warning.actionNotEnabled ++
        set.undeclaredTests.map Warning.testNotEnabled := by
  rw [← validate_extensions, List.mem_filter, and_iff_left h]

theorem action_warned_iff {kind : ActionKind} (h : kind ∈ checkedActions) :
    .actionNotEnabled kind ∈ set.validate ↔
      set.usesAction kind = true ∧ set.allows kind.capability? = false := by
  rw [mem_validate set rfl]
  simp [undeclaredActions, h]

theorem test_warned_iff {kind : ConditionKind} (h : kind ∈ checkedTests) :
    .testNotEnabled kind ∈ set.validate ↔
      set.usesTest kind = true ∧ set.allows kind.capability? = false := by
  rw [mem_validate set rfl]
  simp [undeclaredTests, h]

theorem count_validate {warning : Warning} (h : warning.isOfExtension = true) :
    set.validate.count warning ≤ 1 := by
  have actions : (set.undeclaredActions.map Warning.actionNotEnabled).Nodup := by
    refine List.Pairwise.map _ ?_ ((by decide : checkedActions.Nodup).filter _)
    intro a b hab he
    exact hab (Warning.actionNotEnabled.inj he)
  have tests : (set.undeclaredTests.map Warning.testNotEnabled).Nodup := by
    refine List.Pairwise.map _ ?_ ((by decide : checkedTests.Nodup).filter _)
    intro a b hab he
    exact hab (Warning.testNotEnabled.inj he)
  have once : (set.validate.filter Warning.isOfExtension).Nodup := by
    rw [validate_extensions]
    refine List.nodup_append.mpr ⟨actions, tests, ?_⟩
    intro a ha b hb he
    obtain ⟨action, -, rfl⟩ := List.mem_map.mp ha
    obtain ⟨test, -, rfl⟩ := List.mem_map.mp hb
    cases he
  have same := List.count_filter (l := set.validate) h
  rw [← same]
  exact List.nodup_iff_count.mp once warning

end RuleSet

theorem Condition.uses_toTest (condition : Condition) (name : String) :
    condition.toTest.Uses name ↔ condition.kind.word = name := by
  constructor
  · intro h
    cases h with
    | here h => exact h
    | inner ht => cases ht
  · intro h
    exact .here h

namespace Policy

theorem uses_toTest {policy : Policy} {kind : ConditionKind} (hk : kind ≠ .always) :
    policy.toTest.Uses kind.word ↔ ∃ condition ∈ policy.conditions, condition.kind = kind := by
  have same : ∀ condition : Condition,
      condition.toTest.Uses kind.word ↔ condition.kind = kind := by
    intro condition
    rw [condition.uses_toTest]
    exact ⟨@Vocabulary.word_injective ConditionKind _ _ _, congrArg ConditionKind.word⟩
  unfold toTest
  split
  · rename_i none
    rw [same, none]
    constructor
    · intro h
      exact absurd h.symm hk
    · rintro ⟨condition, hc, -⟩
      cases hc
  · rename_i condition one
    rw [same, one]
    constructor
    · intro h
      exact ⟨condition, List.mem_cons_self, h⟩
    · rintro ⟨other, ho, h⟩
      rwa [← List.mem_singleton.mp ho]
  · constructor
    · intro h
      cases h with
      | here h =>
        have apart : ∀ (c : Combinator) (kind : ConditionKind), c.word ≠ kind.word := by
          intro c kind
          cases c <;> cases kind <;> decide
        exact absurd h (apart _ _)
      | inner ht h =>
        obtain ⟨condition, hc, rfl⟩ := List.mem_map.mp ht
        exact ⟨condition, hc, (same condition).mp h⟩
    · rintro ⟨condition, hc, h⟩
      exact .inner (List.mem_map_of_mem hc) ((same condition).mpr h)

theorem inside_toCommand {policy : Policy} {keyword : String} {command : Command} :
    command.Inside (policy.toCommand keyword) ↔
      ∃ action ∈ policy.actions, action.toCommand = command := by
  constructor
  · intro h
    cases h with
    | here hb hc =>
      cases hb
      exact List.mem_map.mp hc
    | deeper hb hc h =>
      cases hb
      obtain ⟨action, -, rfl⟩ := List.mem_map.mp hc
      cases h with
      | here hb | deeper hb => cases hb
  · rintro ⟨action, ha, rfl⟩
    exact .here rfl (List.mem_map_of_mem ha)

theorem exists_chain {P : Command → Prop} {Q : Policy → Prop}
    (h : ∀ (policy : Policy) keyword, P (policy.toCommand keyword) ↔ Q policy)
    (policies : List Policy) :
    (∃ command ∈ chain policies, P command) ↔ ∃ policy ∈ policies, Q policy := by
  cases policies with
  | nil => simp [chain]
  | cons first rest =>
    constructor
    · rintro ⟨command, hc, hp⟩
      rcases List.mem_cons.mp hc with rfl | hc
      · exact ⟨first, List.mem_cons_self, (h first "if").mp hp⟩
      · obtain ⟨policy, hr, rfl⟩ := List.mem_map.mp hc
        exact ⟨policy, List.mem_cons_of_mem _ hr, (h policy "elsif").mp hp⟩
    · rintro ⟨policy, hr, hq⟩
      rcases List.mem_cons.mp hr with rfl | hr
      · exact ⟨_, List.mem_cons_self, (h policy "if").mpr hq⟩
      · exact ⟨_, List.mem_cons_of_mem _ (List.mem_map_of_mem hr), (h policy "elsif").mpr hq⟩

end Policy

namespace RuleSet

variable {set : RuleSet}

theorem exists_outer (P : Command → Prop) (Q : Policy → Prop)
    (required : ∀ arguments, ¬ P ⟨"require", arguments, [], none⟩)
    (h : ∀ (policy : Policy) keyword, P (policy.toCommand keyword) ↔ Q policy) :
    (∃ command ∈ set.toScript.commands, P command) ↔
      ∃ rule ∈ set.activeRules, Q rule.toPolicy := by
  have branches : (∃ command ∈ Policy.chain (set.activeRules.map Rule.toPolicy), P command) ↔
      ∃ rule ∈ set.activeRules, Q rule.toPolicy := by
    rw [Policy.exists_chain h]
    constructor
    · rintro ⟨policy, hp, hq⟩
      obtain ⟨rule, hr, rfl⟩ := List.mem_map.mp hp
      exact ⟨rule, hr, hq⟩
    · rintro ⟨rule, hr, hq⟩
      exact ⟨_, List.mem_map_of_mem hr, hq⟩
  rw [← branches]
  constructor
  · rintro ⟨command, hc, hp⟩
    rcases List.mem_append.mp hc with hc | hc
    · unfold requireCommands at hc
      split at hc
      · cases hc
      · rw [List.mem_singleton.mp hc] at hp
        exact absurd hp (required _)
    · exact ⟨command, hc, hp⟩
  · rintro ⟨command, hc, hp⟩
    exact ⟨command, List.mem_append_right _ hc, hp⟩

theorem performs_iff (kind : ActionKind) :
    set.toScript.Performs kind.word ↔ set.usesAction kind = true := by
  have outer : set.toScript.Performs kind.word ↔
      ∃ rule ∈ set.activeRules, ∃ action ∈ rule.actions, action.kind = kind := by
    refine exists_outer
      (fun outer => ∃ command : Command, command.Inside outer ∧ command.name = kind.word)
      (fun policy => ∃ action ∈ policy.actions, action.kind = kind) ?_ ?_
    · rintro arguments ⟨command, hc, -⟩
      cases hc with
      | here hb | deeper hb => cases hb
    · intro policy keyword
      simp only [Policy.inside_toCommand]
      constructor
      · rintro ⟨-, ⟨action, ha, rfl⟩, hn⟩
        exact ⟨action, ha, @Vocabulary.word_injective ActionKind _ _ _ hn⟩
      · rintro ⟨action, ha, rfl⟩
        exact ⟨action.toCommand, ⟨action, ha, rfl⟩, rfl⟩
  rw [outer, usesAction]
  simp

theorem asks_iff {kind : ConditionKind} (hk : kind ≠ .always) :
    set.toScript.Asks kind.word ↔ set.usesTest kind = true := by
  have outer : set.toScript.Asks kind.word ↔
      ∃ rule ∈ set.activeRules, ∃ condition ∈ rule.conditions, condition.kind = kind := by
    refine exists_outer
      (fun outer => ∃ command : Command, (command = outer ∨ command.Inside outer) ∧
        ∃ test ∈ command.tests, test.Uses kind.word)
      (fun policy => ∃ condition ∈ policy.conditions, condition.kind = kind) ?_ ?_
    · rintro arguments ⟨command, rfl | hc, test, ht, -⟩
      · cases ht
      · cases hc with
        | here hb | deeper hb => cases hb
    · intro policy keyword
      rw [← Policy.uses_toTest hk]
      constructor
      · rintro ⟨command, rfl | hc, test, ht, hu⟩
        · rwa [← List.mem_singleton.mp ht]
        · obtain ⟨action, -, rfl⟩ := Policy.inside_toCommand.mp hc
          cases ht
      · intro hu
        exact ⟨_, .inl rfl, _, List.mem_singleton.mpr rfl, hu⟩
  rw [outer, usesTest]
  simp

theorem word_mem_requires {capability : Capability} (hc : capability ≠ .comparator) :
    capability.word ∈ set.requires ↔ set.extensions.isEnabled capability = true := by
  have own : requiredExtension capability.word = capability.word := by
    cases capability <;> decide
  constructor
  · intro h
    have listed : capability.word ∈ set.requires.map requiredExtension :=
      List.mem_map.mpr ⟨_, h, own⟩
    obtain ⟨enabled, he, hw⟩ := (set.mem_requires _).mp listed
    rwa [← @Vocabulary.word_injective Capability _ _ _ hw]
  · intro h
    have listed : capability ∈ set.extensions.enabled :=
      List.mem_filter.mpr ⟨Vocabulary.complete capability, h⟩
    have word : capability.word ∈ set.requirement capability := by
      cases capability with
      | comparator => exact absurd rfl hc
      | _ => exact List.mem_singleton.mpr rfl
    exact List.mem_flatMap.mpr ⟨capability, listed, word⟩

theorem requires_iff (name : String) : set.toScript.Requires name ↔ name ∈ set.requires := by
  constructor
  · rintro ⟨command, hc, hn, argument, ha, names, hs, hname⟩
    rcases List.mem_append.mp hc with hc | hc
    · unfold requireCommands at hc
      split at hc
      · cases hc
      · obtain rfl := List.mem_singleton.mp hc
        obtain rfl := List.mem_singleton.mp ha
        cases hs
        exact hname
    · rcases chain_names hc with h | h <;>
        exact absurd (h.symm.trans hn) (by decide)
  · intro h
    have some : set.requires.isEmpty = false := by
      rw [List.isEmpty_eq_false_iff]
      exact List.ne_nil_of_mem h
    have command : set.requireCommands = [⟨"require", [.stringList set.requires], [], none⟩] := by
      rw [requireCommands, some]
      rfl
    refine ⟨_, List.mem_append_left _ (command ▸ List.mem_cons_self), rfl, _, List.mem_cons_self,
      set.requires, rfl, h⟩

theorem allows_iff {capability : Capability} (hc : capability ≠ .comparator) :
    set.allows (some capability) = false ↔ ¬ set.toScript.Requires capability.word := by
  rw [requires_iff, word_mem_requires hc]
  simp [allows]

/-- A filter whose script parses is warned of an extension exactly where the script uses an action
or a test that needs it and does not require it, and is warned of it once. -/
theorem undeclared_warned_iff (set : RuleSet) (h : set.Sized) :
    ∃ script, Script.parse set.generate = .ok script ∧
      (∀ kind ∈ [ActionKind.fileinto, .reject, .vacation],
        (.actionNotEnabled kind ∈ set.validate ↔
          script.Performs kind.word ∧ ¬ script.Requires kind.word) ∧
        set.validate.count (.actionNotEnabled kind) ≤ 1) ∧
      ∀ kind ∈ [ConditionKind.envelope, .body],
        (.testNotEnabled kind ∈ set.validate ↔
          script.Asks kind.word ∧ ¬ script.Requires kind.word) ∧
        set.validate.count (.testNotEnabled kind) ≤ 1 := by
  refine ⟨set.toScript, parse_generate h, ?_, ?_⟩
  · intro kind hk
    refine ⟨?_, count_validate set rfl⟩
    have gate : ∃ capability, kind.capability? = some capability ∧ capability ≠ .comparator ∧
        capability.word = kind.word := by
      revert kind
      decide
    obtain ⟨capability, hc, plain, word⟩ := gate
    rw [action_warned_iff set hk, performs_iff, hc, allows_iff plain, word]
  · intro kind hk
    refine ⟨?_, count_validate set rfl⟩
    have gate : kind ≠ .always ∧ ∃ capability, kind.capability? = some capability ∧
        capability ≠ .comparator ∧ capability.word = kind.word := by
      revert kind
      decide
    obtain ⟨other, capability, hc, plain, word⟩ := gate
    rw [test_warned_iff set hk, asks_iff other, hc, allows_iff plain, word]

/-- One extension that is on, one that only a rule at rest needs, and a test that needs one in the
second place of a combination. -/
def underdeclared : RuleSet :=
  ⟨[⟨⟨true, .allof, [.size .larger "1M", .body "i;octet" .contains .raw ["\"envelope\""]],
      [.fileinto "reject" false false [], .vacation none none ""]⟩, ⟨"id_1"⟩⟩,
    ⟨⟨false, .anyof, [.envelope "" .is .all "from" []], [.reject ""]⟩, ⟨"id_2"⟩⟩],
    .standard⟩

theorem underdeclared_warned : underdeclared.Sized ∧
    ∃ script, Script.parse underdeclared.generate = .ok script ∧
      (script.Performs "vacation" ∧ ¬ script.Requires "vacation") ∧
      ¬ (script.Performs "fileinto" ∧ ¬ script.Requires "fileinto") ∧
      (script.Asks "body" ∧ ¬ script.Requires "body") ∧
      ¬ (script.Asks "envelope" ∧ ¬ script.Requires "envelope") ∧
      underdeclared.validate = [.actionNotEnabled .vacation, .testNotEnabled .body] := by
  have sized : underdeclared.Sized := by decide
  have warned : underdeclared.validate = [.actionNotEnabled .vacation, .testNotEnabled .body] := by
    decide
  obtain ⟨script, parsed, actions, tests⟩ := undeclared_warned_iff underdeclared sized
  rw [warned] at actions tests
  refine ⟨sized, script, parsed, ?_, ?_, ?_, ?_, warned⟩
  · exact (actions .vacation (by decide)).1.mp (by decide)
  · exact fun h => absurd ((actions .fileinto (by decide)).1.mpr h) (by decide)
  · exact (tests .body (by decide)).1.mp (by decide)
  · exact fun h => absurd ((tests .envelope (by decide)).1.mpr h) (by decide)

end RuleSet

end SieveRules
