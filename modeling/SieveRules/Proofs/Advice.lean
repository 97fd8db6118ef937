import SieveRules.Proofs.Undeclared
/-!
Advice on a filter, held against the filter itself. A warning is given exactly where the filter has
the defect that it names, and warnings stand in the order of their places, so none is given twice.
-/

namespace SieveRules

/-- The item at a place, where places count from one. -/
def ItemAt {α : Type} (items : List α) (place : Nat) (item : α) : Prop :=
  ∃ k, place = k + 1 ∧ items[k]? = some item

def IsWhite (s : String) : Prop :=
  ∀ c ∈ s.toList, Text.isWhiteSpace c = true

/-- The condition asks a header or an address of this name for these keys. -/
inductive Condition.Names : Condition → String → List String → Prop where
  | header (comparator : String) (matchType : MatchType) (name : String) (keys : List String) :
      Names (.header comparator matchType name keys) name keys
  | address (comparator : String) (matchType : MatchType) (part : AddressPart) (name : String)
      (keys : List String) : Names (.address comparator matchType part name keys) name keys

/-- The action is of a kind that has to be switched on, by the extension of this name. -/
inductive Action.Needs : Action → ActionKind → String → Prop where
  | fileinto (mailbox : String) (create copy : Bool) (flags : List String) :
      Needs (.fileinto mailbox create copy flags) .fileinto "fileinto"
  | reject (reason : String) : Needs (.reject reason) .reject "reject"
  | vacation (days : Option UInt32) (subject : Option String) (message : String) :
      Needs (.vacation days subject message) .vacation "vacation"

inductive Condition.Needs : Condition → ConditionKind → String → Prop where
  | envelope (comparator : String) (matchType : MatchType) (part : AddressPart) (name : String)
      (keys : List String) :
      Needs (.envelope comparator matchType part name keys) .envelope "envelope"
  | body (comparator : String) (matchType : MatchType) (transform : BodyTransform)
      (keys : List String) : Needs (.body comparator matchType transform keys) .body "body"

namespace RuleSet

def ActsAt (set : RuleSet) (place : Nat) (rule : Rule) : Prop :=
  ItemAt set.rules place rule ∧ rule.active = true

def Enables (set : RuleSet) (extension : String) : Prop :=
  set.extensions.flags.get? extension = some true

/-- The filter has the defect that a warning names. -/
def Has (set : RuleSet) : Warning → Prop
  | .noActiveRules => set.rules ≠ [] ∧ ∀ rule ∈ set.rules, rule.active = false
  | .noConditions n => ∃ rule, set.ActsAt n rule ∧ rule.conditions = []
  | .emptyHeaderName n m => ∃ rule condition name keys, set.ActsAt n rule ∧
      ItemAt rule.conditions m condition ∧ condition.Names name keys ∧ IsWhite name
  | .emptyValue n m => ∃ rule condition name keys, set.ActsAt n rule ∧
      ItemAt rule.conditions m condition ∧ condition.Names name keys ∧
        (keys = [] ∨ keys.head? = some "")
  | .noActions n => ∃ rule, set.ActsAt n rule ∧ rule.actions = []
  | .emptyMailbox n m => ∃ rule mailbox create copy flags, set.ActsAt n rule ∧
      ItemAt rule.actions m (.fileinto mailbox create copy flags) ∧ IsWhite mailbox
  | .emptyRedirectAddress n m => ∃ rule address copy, set.ActsAt n rule ∧
      ItemAt rule.actions m (.redirect address copy) ∧ IsWhite address
  | .actionNotEnabled kind => ∃ rule ∈ set.rules, rule.active = true ∧
      ∃ action ∈ rule.actions, ∃ extension, action.Needs kind extension ∧ ¬ set.Enables extension
  | .testNotEnabled kind => ∃ rule ∈ set.rules, rule.active = true ∧
      ∃ condition ∈ rule.conditions, ∃ extension, condition.Needs kind extension ∧
        ¬ set.Enables extension

end RuleSet

namespace Warning

/-- Where a warning stands: the presence of rules, then the rules, then the extensions of actions
and of tests. In a rule the conditions come before the actions, a list before its items, and of an
item the name before the value. -/
def rank : Warning → List Nat
  | noActiveRules => [0]
  | noConditions rule => [1, rule, 0, 0]
  | emptyHeaderName rule condition => [1, rule, 0, condition, 0]
  | emptyValue rule condition => [1, rule, 0, condition, 1]
  | noActions rule => [1, rule, 1, 0]
  | emptyMailbox rule action => [1, rule, 1, action, 0]
  | emptyRedirectAddress rule action => [1, rule, 1, action, 0]
  | actionNotEnabled kind => [2, [ActionKind.fileinto, .reject, .vacation].idxOf kind]
  | testNotEnabled kind => [3, [ConditionKind.envelope, .body].idxOf kind]

def Before (w v : Warning) : Prop :=
  w.rank < v.rank

instance (w v : Warning) : Decidable (w.Before v) :=
  inferInstanceAs (Decidable (w.rank < v.rank))

def Within (w : Warning) (place : List Nat) : Prop :=
  place <+: w.rank

theorem Within.outer {w : Warning} {place : List Nat} (inner : List Nat)
    (h : w.Within (place ++ inner)) : w.Within place :=
  (List.prefix_append place inner).trans h

/-- Of two places that begin alike, the one with the smaller next number comes first. -/
theorem before_of_within {w v : Warning} (place : List Nat) {i j : Nat}
    (hw : w.Within (place ++ [i])) (hv : v.Within (place ++ [j])) (h : i < j) : w.Before v := by
  obtain ⟨s, hs⟩ := hw
  obtain ⟨t, ht⟩ := hv
  rw [Before, ← hs, ← ht, List.append_assoc, List.append_assoc]
  exact List.append_left_lt (List.cons_lt_cons_iff.mpr (.inl h))

theorem before_irrefl (w : Warning) : ¬ w.Before w :=
  List.lt_irrefl w.rank

end Warning

section

variable {α : Type} {warnings : Nat → α → List Warning}

theorem mem_warningsFrom_iff {first : Nat} {items : List α} {w : Warning} :
    w ∈ warningsFrom warnings first items ↔
      ∃ k item, items[k]? = some item ∧ w ∈ warnings (first + k) item := by
  induction items generalizing first with
  | nil => simp [warningsFrom]
  | cons item rest ih =>
    rw [warningsFrom, List.mem_append, ih]
    constructor
    · rintro (hw | ⟨k, other, hk, hw⟩)
      · exact ⟨0, item, rfl, hw⟩
      · exact ⟨k + 1, other, hk, by rwa [Nat.add_assoc, Nat.add_comm 1 k] at hw⟩
    · rintro ⟨k, other, hk, hw⟩
      cases k with
      | zero =>
        cases hk
        exact .inl hw
      | succ k => exact .inr ⟨k, other, hk, by rwa [Nat.add_assoc, Nat.add_comm 1 k]⟩

theorem mem_warningsFrom_one {items : List α} {w : Warning} :
    w ∈ warningsFrom warnings 1 items ↔
      ∃ place item, ItemAt items place item ∧ w ∈ warnings place item := by
  rw [mem_warningsFrom_iff]
  constructor
  · rintro ⟨k, item, hk, hw⟩
    exact ⟨k + 1, item, ⟨k, rfl, hk⟩, by rwa [Nat.add_comm] at hw⟩
  · rintro ⟨place, item, ⟨k, rfl, hk⟩, hw⟩
    exact ⟨k, item, hk, by rwa [Nat.add_comm]⟩

theorem warningsFrom_within {place : List Nat} {first : Nat} {items : List α}
    (within : ∀ index, ∀ item ∈ items, ∀ w ∈ warnings index item, w.Within (place ++ [index]))
    {w : Warning} (hw : w ∈ warningsFrom warnings first items) :
    ∃ index, first ≤ index ∧ w.Within (place ++ [index]) := by
  obtain ⟨k, item, hk, hw⟩ := mem_warningsFrom_iff.mp hw
  exact ⟨first + k, Nat.le_add_right _ _, within _ item (List.mem_of_getElem? hk) w hw⟩

theorem warningsFrom_ordered {place : List Nat} {first : Nat} {items : List α}
    (within : ∀ index, ∀ item ∈ items, ∀ w ∈ warnings index item, w.Within (place ++ [index]))
    (each : ∀ index, ∀ item ∈ items, (warnings index item).Pairwise Warning.Before) :
    (warningsFrom warnings first items).Pairwise Warning.Before := by
  induction items generalizing first with
  | nil => exact .nil
  | cons item rest ih =>
    have later := fun index other (ho : other ∈ rest) =>
      within index other (List.mem_cons_of_mem _ ho)
    refine List.pairwise_append.mpr ⟨each first item List.mem_cons_self, ?_, ?_⟩
    · exact ih later fun index other ho => each index other (List.mem_cons_of_mem _ ho)
    · intro w hw v hv
      obtain ⟨index, behind, hv⟩ := warningsFrom_within later hv
      exact Warning.before_of_within place (within first item List.mem_cons_self w hw) hv behind

end

theorem mem_warning_if {asked : Prop} [Decidable asked] {w given : Warning} :
    w ∈ (if asked then [given] else []) ↔ w = given ∧ asked := by
  split <;> simp_all

theorem ordered_if {asked : Prop} [Decidable asked] (given : Warning) :
    (if asked then [given] else []).Pairwise Warning.Before := by
  split
  · exact List.pairwise_singleton _ _
  · exact .nil

theorem isVacant_iff {s : String} : Text.isVacant s = true ↔ IsWhite s :=
  List.all_eq_true

namespace Condition

theorem mem_warnings {condition : Condition} {n m : Nat} {w : Warning} :
    w ∈ condition.warnings n m ↔ ∃ name keys, condition.Names name keys ∧
      (w = .emptyHeaderName n m ∧ IsWhite name ∨
        w = .emptyValue n m ∧ (keys = [] ∨ keys.head? = some "")) := by
  have lacking : ∀ keys : List String,
      keys.head?.getD "" = "" ↔ keys = [] ∨ keys.head? = some "" := by
    intro keys
    cases keys <;> simp
  have said : ∀ (name : String) (keys : List String),
      w ∈ (if Text.isVacant name then [Warning.emptyHeaderName n m] else []) ++
          (if keys.head?.getD "" = "" then [.emptyValue n m] else []) ↔
        w = .emptyHeaderName n m ∧ IsWhite name ∨
          w = .emptyValue n m ∧ (keys = [] ∨ keys.head? = some "") := by
    intro name keys
    rw [List.mem_append, mem_warning_if, mem_warning_if, isVacant_iff, lacking]
  cases condition with
  | header comparator matchType name keys =>
    refine (said name keys).trans ⟨fun h => ⟨name, keys, .header .., h⟩, ?_⟩
    rintro ⟨_, _, ⟨⟩, h⟩
    exact h
  | address comparator matchType part name keys =>
    refine (said name keys).trans ⟨fun h => ⟨name, keys, .address .., h⟩, ?_⟩
    rintro ⟨_, _, ⟨⟩, h⟩
    exact h
  | _ =>
    constructor
    · intro h
      cases h
    · rintro ⟨_, _, ⟨⟩, _⟩

theorem warnings_within {condition : Condition} {n m : Nat} :
    ∀ w ∈ condition.warnings n m, w.Within ([1, n, 0] ++ [m]) := by
  intro w hw
  obtain ⟨_, _, -, ⟨rfl, -⟩ | ⟨rfl, -⟩⟩ := mem_warnings.mp hw
  · exact ⟨[0], rfl⟩
  · exact ⟨[1], rfl⟩

theorem warnings_ordered (condition : Condition) (n m : Nat) :
    (condition.warnings n m).Pairwise Warning.Before := by
  unfold warnings
  split
  · refine List.pairwise_append.mpr ⟨ordered_if _, ordered_if _, ?_⟩
    intro w hw v hv
    obtain ⟨rfl, -⟩ := mem_warning_if.mp hw
    obtain ⟨rfl, -⟩ := mem_warning_if.mp hv
    exact Warning.before_of_within [1, n, 0, m] ⟨[], rfl⟩ ⟨[], rfl⟩ Nat.zero_lt_one
  · exact .nil

end Condition

namespace Action

theorem mem_warnings {action : Action} {n m : Nat} {w : Warning} :
    w ∈ action.warnings n m ↔
      (∃ mailbox create copy flags, action = .fileinto mailbox create copy flags ∧
        IsWhite mailbox ∧ w = .emptyMailbox n m) ∨
      ∃ address copy, action = .redirect address copy ∧ IsWhite address ∧
        w = .emptyRedirectAddress n m := by
  cases action with
  | fileinto mailbox create copy flags =>
    rw [warnings, mem_warning_if, isVacant_iff]
    constructor
    · rintro ⟨hw, white⟩
      exact .inl ⟨mailbox, create, copy, flags, rfl, white, hw⟩
    · rintro (⟨_, _, _, _, ⟨⟩, white, hw⟩ | ⟨_, _, ⟨⟩, _⟩)
      exact ⟨hw, white⟩
  | redirect address copy =>
    rw [warnings, mem_warning_if, isVacant_iff]
    constructor
    · rintro ⟨hw, white⟩
      exact .inr ⟨address, copy, rfl, white, hw⟩
    · rintro (⟨_, _, _, _, ⟨⟩, _⟩ | ⟨_, _, ⟨⟩, white, hw⟩)
      exact ⟨hw, white⟩
  | _ => simp [warnings]

theorem warnings_within {action : Action} {n m : Nat} :
    ∀ w ∈ action.warnings n m, w.Within ([1, n, 1] ++ [m]) := by
  intro w hw
  obtain ⟨_, _, _, _, -, -, rfl⟩ | ⟨_, _, -, -, rfl⟩ := mem_warnings.mp hw
  · exact ⟨[0], rfl⟩
  · exact ⟨[0], rfl⟩

theorem warnings_ordered (action : Action) (n m : Nat) :
    (action.warnings n m).Pairwise Warning.Before := by
  cases action with
  | fileinto | redirect => exact ordered_if _
  | _ => exact .nil

end Action

namespace Policy

theorem mem_warnings {policy : Policy} {n : Nat} {w : Warning} :
    w ∈ policy.warnings n ↔
      (w = .noConditions n ∧ policy.conditions = []) ∨
      (∃ m condition, ItemAt policy.conditions m condition ∧ w ∈ condition.warnings n m) ∨
      (w = .noActions n ∧ policy.actions = []) ∨
      ∃ m action, ItemAt policy.actions m action ∧ w ∈ action.warnings n m := by
  simp only [warnings, List.mem_append, mem_warning_if, mem_warningsFrom_one, List.isEmpty_iff,
    or_assoc]

theorem warnings_within {policy : Policy} {n : Nat} :
    ∀ w ∈ policy.warnings n, w.Within ([1] ++ [n]) := by
  intro w hw
  obtain ⟨rfl, -⟩ | ⟨m, condition, -, hw⟩ | ⟨rfl, -⟩ | ⟨m, action, -, hw⟩ := mem_warnings.mp hw
  · exact ⟨[0, 0], rfl⟩
  · exact Warning.Within.outer [0, m] (Condition.warnings_within w hw)
  · exact ⟨[1, 0], rfl⟩
  · exact Warning.Within.outer [1, m] (Action.warnings_within w hw)

/-- A list that is empty is told of before its items are, and conditions before actions. -/
theorem warnings_ordered (policy : Policy) (n : Nat) :
    (policy.warnings n).Pairwise Warning.Before := by
  have conditions : ∀ w ∈ (if policy.conditions.isEmpty then [Warning.noConditions n] else []) ++
      warningsFrom (Condition.warnings n) 1 policy.conditions, w.Within ([1, n] ++ [0]) := by
    intro w hw
    rcases List.mem_append.mp hw with hw | hw
    · obtain ⟨rfl, -⟩ := mem_warning_if.mp hw
      exact ⟨[0], rfl⟩
    · obtain ⟨m, -, hw⟩ := warningsFrom_within (fun _ _ _ => Condition.warnings_within) hw
      exact Warning.Within.outer [m] hw
  have actions : ∀ w ∈ (if policy.actions.isEmpty then [Warning.noActions n] else []) ++
      warningsFrom (Action.warnings n) 1 policy.actions, w.Within ([1, n] ++ [1]) := by
    intro w hw
    rcases List.mem_append.mp hw with hw | hw
    · obtain ⟨rfl, -⟩ := mem_warning_if.mp hw
      exact ⟨[0], rfl⟩
    · obtain ⟨m, -, hw⟩ := warningsFrom_within (fun _ _ _ => Action.warnings_within) hw
      exact Warning.Within.outer [m] hw
  rw [warnings, List.append_assoc]
  refine List.pairwise_append.mpr ⟨?_, ?_, ?_⟩
  · refine List.pairwise_append.mpr ⟨ordered_if _, ?_, ?_⟩
    · exact warningsFrom_ordered (fun _ _ _ => Condition.warnings_within)
        fun m condition _ => condition.warnings_ordered n m
    · intro w hw v hv
      obtain ⟨rfl, -⟩ := mem_warning_if.mp hw
      obtain ⟨m, behind, hv⟩ := warningsFrom_within (fun _ _ _ => Condition.warnings_within) hv
      exact Warning.before_of_within [1, n, 0] ⟨[], rfl⟩ hv behind
  · refine List.pairwise_append.mpr ⟨ordered_if _, ?_, ?_⟩
    · exact warningsFrom_ordered (fun _ _ _ => Action.warnings_within)
        fun m action _ => action.warnings_ordered n m
    · intro w hw v hv
      obtain ⟨rfl, -⟩ := mem_warning_if.mp hw
      obtain ⟨m, behind, hv⟩ := warningsFrom_within (fun _ _ _ => Action.warnings_within) hv
      exact Warning.before_of_within [1, n, 1] ⟨[], rfl⟩ hv behind
  · intro w hw v hv
    exact Warning.before_of_within [1, n] (conditions w hw) (actions v hv) Nat.zero_lt_one

end Policy

namespace RuleSet

variable (set : RuleSet)

theorem validate_parts : set.validate =
    (if !set.rules.isEmpty && !set.hasActiveRules then [Warning.noActiveRules] else []) ++
      warningsFrom (fun n rule => if rule.active then rule.toPolicy.warnings n else []) 1
        set.rules ++
      set.undeclaredActions.map .actionNotEnabled ++ set.undeclaredTests.map .testNotEnabled :=
  rfl

theorem presence_iff : (!set.rules.isEmpty && !set.hasActiveRules) = true ↔
    set.rules ≠ [] ∧ ∀ rule ∈ set.rules, rule.active = false := by
  simp [hasActiveRules]

theorem mem_places {w : Warning} :
    w ∈ warningsFrom (fun n rule => if rule.active then rule.toPolicy.warnings n else []) 1
        set.rules ↔
      ∃ n rule, set.ActsAt n rule ∧ w ∈ rule.toPolicy.warnings n := by
  rw [mem_warningsFrom_one]
  constructor
  · rintro ⟨n, rule, stands, hw⟩
    split at hw
    · rename_i active
      exact ⟨n, rule, ⟨stands, active⟩, hw⟩
    · cases hw
  · rintro ⟨n, rule, ⟨stands, active⟩, hw⟩
    exact ⟨n, rule, stands, by rwa [if_pos active]⟩

theorem allows_eq_false_iff {capability : Capability} :
    set.allows (some capability) = false ↔ ¬ set.Enables capability.word := by
  unfold Enables
  change (set.extensions.flags.get? capability.word).getD false = false ↔ _
  cases set.extensions.flags.get? capability.word <;> simp

theorem gate_of_checkedAction : ∀ kind ∈ checkedActions, ∃ capability,
    kind.capability? = some capability ∧ capability.word = kind.word := by
  decide

theorem gate_of_checkedTest : ∀ kind ∈ checkedTests, ∃ capability,
    kind.capability? = some capability ∧ capability.word = kind.word := by
  decide

theorem needs_action_iff {action : Action} {kind : ActionKind} {extension : String} :
    action.Needs kind extension ↔
      kind ∈ checkedActions ∧ action.kind = kind ∧ kind.word = extension := by
  constructor
  · rintro (_ | _ | _) <;> exact ⟨by decide, rfl, rfl⟩
  · rintro ⟨checked, rfl, rfl⟩
    cases action with
    | fileinto | reject | vacation => constructor
    | _ => exact absurd checked (by simp [checkedActions, Action.kind])

theorem needs_test_iff {condition : Condition} {kind : ConditionKind} {extension : String} :
    condition.Needs kind extension ↔
      kind ∈ checkedTests ∧ condition.kind = kind ∧ kind.word = extension := by
  constructor
  · rintro (_ | _) <;> exact ⟨by decide, rfl, rfl⟩
  · rintro ⟨checked, rfl, rfl⟩
    cases condition with
    | envelope | body => constructor
    | _ => exact absurd checked (by simp [checkedTests, Condition.kind])

theorem mem_undeclaredActions {kind : ActionKind} :
    kind ∈ set.undeclaredActions ↔ set.Has (.actionNotEnabled kind) := by
  have used : set.usesAction kind = true ↔ ∃ rule ∈ set.rules, rule.active = true ∧
      ∃ action ∈ rule.actions, action.kind = kind := by
    simp [usesAction, activeRules]
  have off (checked : kind ∈ checkedActions) :
      set.allows kind.capability? = false ↔ ¬ set.Enables kind.word := by
    obtain ⟨capability, hc, word⟩ := gate_of_checkedAction kind checked
    rw [hc, allows_eq_false_iff, word]
  unfold undeclaredActions
  rw [List.mem_filter, Bool.and_eq_true, Bool.not_eq_true', used]
  constructor
  · rintro ⟨checked, ⟨rule, hr, active, action, ha, same⟩, denied⟩
    exact ⟨rule, hr, active, action, ha, kind.word, needs_action_iff.mpr ⟨checked, same, rfl⟩,
      (off checked).mp denied⟩
  · rintro ⟨rule, hr, active, action, ha, extension, needs, denied⟩
    obtain ⟨checked, same, rfl⟩ := needs_action_iff.mp needs
    exact ⟨checked, ⟨rule, hr, active, action, ha, same⟩, (off checked).mpr denied⟩

theorem mem_undeclaredTests {kind : ConditionKind} :
    kind ∈ set.undeclaredTests ↔ set.Has (.testNotEnabled kind) := by
  have used : set.usesTest kind = true ↔ ∃ rule ∈ set.rules, rule.active = true ∧
      ∃ condition ∈ rule.conditions, condition.kind = kind := by
    simp [usesTest, activeRules]
  have off (checked : kind ∈ checkedTests) :
      set.allows kind.capability? = false ↔ ¬ set.Enables kind.word := by
    obtain ⟨capability, hc, word⟩ := gate_of_checkedTest kind checked
    rw [hc, allows_eq_false_iff, word]
  unfold undeclaredTests
  rw [List.mem_filter, Bool.and_eq_true, Bool.not_eq_true', used]
  constructor
  · rintro ⟨checked, ⟨rule, hr, active, condition, hc, same⟩, denied⟩
    exact ⟨rule, hr, active, condition, hc, kind.word, needs_test_iff.mpr ⟨checked, same, rfl⟩,
      (off checked).mp denied⟩
  · rintro ⟨rule, hr, active, condition, hc, extension, needs, denied⟩
    obtain ⟨checked, same, rfl⟩ := needs_test_iff.mp needs
    exact ⟨checked, ⟨rule, hr, active, condition, hc, same⟩, (off checked).mpr denied⟩

theorem mem_validate_parts {w : Warning} : w ∈ set.validate ↔
    (w = .noActiveRules ∧ set.Has .noActiveRules) ∨
    (∃ n rule, set.ActsAt n rule ∧ w ∈ rule.toPolicy.warnings n) ∨
    (∃ kind, set.Has (.actionNotEnabled kind) ∧ .actionNotEnabled kind = w) ∨
    ∃ kind, set.Has (.testNotEnabled kind) ∧ .testNotEnabled kind = w := by
  rw [validate_parts, List.mem_append, List.mem_append, List.mem_append, mem_warning_if,
    presence_iff, mem_places, List.mem_map, List.mem_map, or_assoc, or_assoc]
  simp only [mem_undeclaredActions, mem_undeclaredTests]
  rfl

theorem has_of_policy {n : Nat} {rule : Rule} {w : Warning} (acts : set.ActsAt n rule)
    (hw : w ∈ rule.toPolicy.warnings n) : set.Has w := by
  rcases Policy.mem_warnings.mp hw with
    ⟨rfl, none⟩ | ⟨m, condition, stands, hw⟩ | ⟨rfl, none⟩ | ⟨m, action, stands, hw⟩
  · exact ⟨rule, acts, none⟩
  · obtain ⟨name, keys, names, ⟨rfl, white⟩ | ⟨rfl, lacking⟩⟩ := Condition.mem_warnings.mp hw
    · exact ⟨rule, condition, name, keys, acts, stands, names, white⟩
    · exact ⟨rule, condition, name, keys, acts, stands, names, lacking⟩
  · exact ⟨rule, acts, none⟩
  · rcases Action.mem_warnings.mp hw with
      ⟨mailbox, create, copy, flags, rfl, white, rfl⟩ | ⟨address, copy, rfl, white, rfl⟩
    · exact ⟨rule, mailbox, create, copy, flags, acts, stands, white⟩
    · exact ⟨rule, address, copy, acts, stands, white⟩

theorem mem_of_policy {n : Nat} {rule : Rule} {w : Warning} (acts : set.ActsAt n rule)
    (hw : w ∈ rule.toPolicy.warnings n) : w ∈ set.validate :=
  set.mem_validate_parts.mpr (.inr (.inl ⟨n, rule, acts, hw⟩))

theorem mem_of_condition {n m : Nat} {rule : Rule} {condition : Condition} {w : Warning}
    (acts : set.ActsAt n rule) (stands : ItemAt rule.conditions m condition)
    (hw : w ∈ condition.warnings n m) : w ∈ set.validate :=
  set.mem_of_policy acts (Policy.mem_warnings.mpr (.inr (.inl ⟨m, condition, stands, hw⟩)))

theorem mem_of_action {n m : Nat} {rule : Rule} {action : Action} {w : Warning}
    (acts : set.ActsAt n rule) (stands : ItemAt rule.actions m action)
    (hw : w ∈ action.warnings n m) : w ∈ set.validate :=
  set.mem_of_policy acts (Policy.mem_warnings.mpr (.inr (.inr (.inr ⟨m, action, stands, hw⟩))))

theorem mem_validate_iff (w : Warning) : w ∈ set.validate ↔ set.Has w := by
  constructor
  · intro hw
    rcases set.mem_validate_parts.mp hw with
      ⟨rfl, has⟩ | ⟨n, rule, acts, hw⟩ | ⟨kind, has, rfl⟩ | ⟨kind, has, rfl⟩
    · exact has
    · exact set.has_of_policy acts hw
    · exact has
    · exact has
  · intro has
    cases w with
    | noActiveRules => exact set.mem_validate_parts.mpr (.inl ⟨rfl, has⟩)
    | noConditions n =>
      obtain ⟨rule, acts, none⟩ := has
      exact set.mem_of_policy acts (Policy.mem_warnings.mpr (.inl ⟨rfl, none⟩))
    | emptyHeaderName n m =>
      obtain ⟨rule, condition, name, keys, acts, stands, names, white⟩ := has
      exact set.mem_of_condition acts stands
        (Condition.mem_warnings.mpr ⟨name, keys, names, .inl ⟨rfl, white⟩⟩)
    | emptyValue n m =>
      obtain ⟨rule, condition, name, keys, acts, stands, names, lacking⟩ := has
      exact set.mem_of_condition acts stands
        (Condition.mem_warnings.mpr ⟨name, keys, names, .inr ⟨rfl, lacking⟩⟩)
    | noActions n =>
      obtain ⟨rule, acts, none⟩ := has
      exact set.mem_of_policy acts (Policy.mem_warnings.mpr (.inr (.inr (.inl ⟨rfl, none⟩))))
    | emptyMailbox n m =>
      obtain ⟨rule, mailbox, create, copy, flags, acts, stands, white⟩ := has
      exact set.mem_of_action acts stands
        (Action.mem_warnings.mpr (.inl ⟨mailbox, create, copy, flags, rfl, white, rfl⟩))
    | emptyRedirectAddress n m =>
      obtain ⟨rule, address, copy, acts, stands, white⟩ := has
      exact set.mem_of_action acts stands
        (Action.mem_warnings.mpr (.inr ⟨address, copy, rfl, white, rfl⟩))
    | actionNotEnabled kind =>
      exact set.mem_validate_parts.mpr (.inr (.inr (.inl ⟨kind, has, rfl⟩)))
    | testNotEnabled kind =>
      exact set.mem_validate_parts.mpr (.inr (.inr (.inr ⟨kind, has, rfl⟩)))

theorem map_ordered {α : Type} {checked : List α} {warning : α → Warning}
    (h : checked.Pairwise fun a b => (warning a).Before (warning b)) (p : α → Bool) :
    ((checked.filter p).map warning).Pairwise Warning.Before :=
  List.pairwise_map.mpr (h.filter p)

theorem validate_ordered : set.validate.Pairwise Warning.Before := by
  have presence : ∀ w ∈ (if !set.rules.isEmpty && !set.hasActiveRules then
      [Warning.noActiveRules] else []), w.Within [0] := by
    intro w hw
    obtain ⟨rfl, -⟩ := mem_warning_if.mp hw
    exact ⟨[], rfl⟩
  have rules : ∀ n, ∀ rule ∈ set.rules,
      ∀ w ∈ (if rule.active then rule.toPolicy.warnings n else []), w.Within ([1] ++ [n]) := by
    intro n rule _ w hw
    split at hw
    · exact Policy.warnings_within w hw
    · cases hw
  have each : ∀ n, ∀ rule ∈ set.rules,
      (if rule.active then rule.toPolicy.warnings n else []).Pairwise Warning.Before := by
    intro n rule _
    split
    · exact rule.toPolicy.warnings_ordered n
    · exact .nil
  have actions : ∀ w ∈ set.undeclaredActions.map Warning.actionNotEnabled, w.Within [2] := by
    intro w hw
    obtain ⟨kind, -, rfl⟩ := List.mem_map.mp hw
    exact ⟨[_], rfl⟩
  have tests : ∀ w ∈ set.undeclaredTests.map Warning.testNotEnabled, w.Within [3] := by
    intro w hw
    obtain ⟨kind, -, rfl⟩ := List.mem_map.mp hw
    exact ⟨[_], rfl⟩
  rw [validate_parts]
  refine List.pairwise_append.mpr ⟨List.pairwise_append.mpr ⟨List.pairwise_append.mpr
    ⟨ordered_if _, warningsFrom_ordered rules each, ?_⟩, map_ordered (by decide) _, ?_⟩,
    map_ordered (by decide) _, ?_⟩
  · intro w hw v hv
    obtain ⟨n, -, hv⟩ := warningsFrom_within rules hv
    exact Warning.before_of_within [] (presence w hw) (hv.outer [n]) Nat.zero_lt_one
  · intro w hw v hv
    rcases List.mem_append.mp hw with hw | hw
    · exact Warning.before_of_within [] (presence w hw) (actions v hv) Nat.zero_lt_two
    · obtain ⟨n, -, hw⟩ := warningsFrom_within rules hw
      exact Warning.before_of_within [] (hw.outer [n]) (actions v hv) Nat.one_lt_two
  · intro w hw v hv
    rcases List.mem_append.mp hw with hw | hw
    · rcases List.mem_append.mp hw with hw | hw
      · exact Warning.before_of_within [] (presence w hw) (tests v hv) (by decide)
      · obtain ⟨n, -, hw⟩ := warningsFrom_within rules hw
        exact Warning.before_of_within [] (hw.outer [n]) (tests v hv) (by decide)
    · exact Warning.before_of_within [] (actions w hw) (tests v hv) (by decide)

/-- A filter is warned of exactly the defects that it has, in the order of their places, and of
none of them twice. -/
theorem validate_reports_defects (set : RuleSet) :
    (∀ w, w ∈ set.validate ↔ set.Has w) ∧ set.validate.Pairwise Warning.Before ∧
      set.validate.Nodup := by
  refine ⟨set.mem_validate_iff, set.validate_ordered, ?_⟩
  refine set.validate_ordered.imp ?_
  rintro w v before rfl
  exact w.before_irrefl before

/-- The rule at rest has its place among the others, but nothing is said of it. -/
example : RuleSet.validate
    ⟨[⟨⟨false, .anyof, [.body "" .is .text []], []⟩, ⟨"id_1"⟩⟩,
        ⟨⟨true, .anyof,
          [.header "" .is " \t" [], .size .larger "", .envelope "" .is .all "" [],
            .address "" .is .all "To" ["", "a"]],
          [.redirect "" false, .reject "", .fileinto " " false false []]⟩, ⟨"id_2"⟩⟩,
        ⟨⟨true, .allof, [], []⟩, ⟨"id_3"⟩⟩,
        ⟨⟨true, .allof, [.always], [.vacation none none ""]⟩, ⟨"id_4"⟩⟩], .empty⟩ =
      [.emptyHeaderName 2 1, .emptyValue 2 1, .emptyValue 2 4, .emptyRedirectAddress 2 1,
        .emptyMailbox 2 3, .noConditions 3, .noActions 3, .actionNotEnabled .fileinto,
        .actionNotEnabled .reject, .actionNotEnabled .vacation, .testNotEnabled .envelope] := by
  decide

end RuleSet

end SieveRules
