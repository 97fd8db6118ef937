import Mathlib.Data.List.Nodup
import SieveRules.Proofs.Generation
/-!
What a script requires and what it uses. Comparators are decided on twice: where the requirements
are collected over the rules, and where each test and each command is written. Both come to the
same names in the same order.
-/

namespace SieveRules

/-- The list holds what the other one uses, each name once and in the order of first use. -/
structure FirstUses (listed uses : List String) : Prop where
  distinct : listed.Nodup
  used_iff : ∀ name, name ∈ listed ↔ name ∈ uses
  in_order : listed.Pairwise fun x y => uses.idxOf x < uses.idxOf y

theorem idxOf_lt_of_filter {p : String → Bool} {names : List String} {x y : String}
    (hx : p x = true) (hy : p y = true)
    (h : (names.filter p).idxOf x < (names.filter p).idxOf y) : names.idxOf x < names.idxOf y := by
  induction names with
  | nil => simp at h
  | cons name rest ih =>
    by_cases hn : p name = true
    · rw [List.filter_cons_of_pos hn] at h
      by_cases last : name = y
      · subst last
        rw [List.idxOf_cons_self] at h
        cases h
      · rw [List.idxOf_cons_ne _ last] at h ⊢
        by_cases first : name = x
        · subst first
          rw [List.idxOf_cons_self]
          exact Nat.succ_pos _
        · rw [List.idxOf_cons_ne _ first] at h ⊢
          exact Nat.succ_lt_succ (ih (Nat.lt_of_succ_lt_succ h))
    · rw [List.filter_cons_of_neg hn] at h
      have other_x : name ≠ x := fun same => hn (same ▸ hx)
      have other_y : name ≠ y := fun same => hn (same ▸ hy)
      rw [List.idxOf_cons_ne _ other_x, List.idxOf_cons_ne _ other_y]
      exact Nat.succ_lt_succ (ih h)

/-- The recursion is on the number of names, which a name that is taken out makes smaller. -/
theorem first_uses_eraseDups (names : List String) : FirstUses names.eraseDups names := by
  cases names with
  | nil => exact ⟨.nil, fun _ => Iff.rfl, .nil⟩
  | cons name rest =>
    have later := first_uses_eraseDups (rest.filter fun other => !other == name)
    rw [List.eraseDups_cons]
    have others : ∀ x ∈ (rest.filter fun other => !other == name).eraseDups, x ≠ name := by
      intro x hx
      simpa using (List.mem_filter.mp ((later.used_iff x).mp hx)).2
    refine ⟨?_, ?_, ?_⟩
    · refine List.nodup_cons.mpr ⟨?_, later.distinct⟩
      intro hx
      exact others name hx rfl
    · intro x
      by_cases same : x = name
      · simp [same]
      · simp [later.used_iff, same]
    · refine List.pairwise_cons.mpr ⟨?_, ?_⟩
      · intro x hx
        rw [List.idxOf_cons_self, List.idxOf_cons_ne _ (others x hx).symm]
        exact Nat.succ_pos _
      · refine later.in_order.imp_of_mem ?_
        intro x y hx hy before
        have hx := others x hx
        have hy := others y hy
        rw [List.idxOf_cons_ne _ hx.symm, List.idxOf_cons_ne _ hy.symm]
        exact Nat.succ_lt_succ (idxOf_lt_of_filter (by simpa using hx) (by simpa using hy) before)
termination_by names.length
decreasing_by exact Nat.lt_succ_of_le (List.length_filter_le _ _)

namespace Argument

/-- The strings that stand right behind a tag of the name. -/
def behind (name : String) : List Argument → List String
  | tag other :: string value :: rest =>
    (if other = name then [value] else []) ++ behind name rest
  | _ :: rest => behind name rest
  | [] => []

variable {name : String} {rest : List Argument}

@[simp] theorem behind_string (value : String) :
    behind name (string value :: rest) = behind name rest := by
  rw [behind]
  nofun

@[simp] theorem behind_stringList (items : List String) :
    behind name (stringList items :: rest) = behind name rest := by
  rw [behind]
  nofun

@[simp] theorem behind_number (digits : String) :
    behind name (number digits :: rest) = behind name rest := by
  rw [behind]
  nofun

theorem behind_tag {other : String} (h : other ≠ name) :
    behind name (tag other :: rest) = behind name rest := by
  cases rest with
  | nil => rfl
  | cons value rest =>
    cases value with
    | string value => rw [behind, if_neg h, List.nil_append, behind_string]
    | _ => rfl

theorem behind_flag {other : String} (h : other ≠ name) (on : Bool) :
    behind name (flagArguments other on ++ rest) = behind name rest := by
  cases on with
  | false => rfl
  | true => exact behind_tag h

theorem behind_option {other : String} (h : other ≠ name) {value : Option Argument}
    (hv : ∀ tag, value ≠ some (.tag tag)) :
    behind name (optionArguments other value ++ rest) = behind name rest := by
  cases value with
  | none => rfl
  | some value =>
    change behind name (tag other :: value :: rest) = _
    rw [behind_tag h]
    cases value with
    | tag tag => exact absurd rfl (hv tag)
    | string value => exact behind_string value
    | stringList items => exact behind_stringList items
    | number digits => exact behind_number digits

theorem behind_named (value : Option String) :
    behind name (optionArguments name (value.map string) ++ rest) =
      value.toList ++ behind name rest := by
  cases value with
  | none => rfl
  | some value =>
    change (if name = name then [value] else []) ++ behind name rest = _
    rw [if_pos rfl]
    rfl

end Argument

mutual

/-- The comparators that a test and the tests inside it name, in the order of reading. -/
def Test.comparators : Test → List String
  | ⟨_, arguments, tests⟩ => Argument.behind ":comparator" arguments ++ Test.comparatorsAll tests

def Test.comparatorsAll : List Test → List String
  | [] => []
  | test :: rest => test.comparators ++ Test.comparatorsAll rest

end

mutual

def Command.comparators : Command → List String
  | ⟨_, arguments, tests, block⟩ =>
    Argument.behind ":comparator" arguments ++ Test.comparatorsAll tests ++
      Command.blockComparators block

def Command.blockComparators : Option (List Command) → List String
  | none => []
  | some body => Command.comparatorsAll body

def Command.comparatorsAll : List Command → List String
  | [] => []
  | command :: rest => command.comparators ++ Command.comparatorsAll rest

end

def Script.comparators (script : Script) : List String :=
  Command.comparatorsAll script.commands

theorem Test.comparatorsAll_eq (tests : List Test) :
    comparatorsAll tests = tests.flatMap comparators := by
  induction tests with
  | nil => rfl
  | cons test rest ih => rw [comparatorsAll, ih, List.flatMap_cons]

theorem Command.comparatorsAll_eq (commands : List Command) :
    comparatorsAll commands = commands.flatMap comparators := by
  induction commands with
  | nil => rfl
  | cons command rest ih => rw [comparatorsAll, ih, List.flatMap_cons]

theorem match_type_no_comparator (m : MatchType) : m.word ≠ ":comparator" := by
  cases m <;> decide

theorem address_part_no_comparator (p : AddressPart) : p.word ≠ ":comparator" := by
  cases p <;> decide

theorem body_transform_no_comparator (t : BodyTransform) : t.word ≠ ":comparator" := by
  cases t <;> decide

theorem Condition.named_comparators (condition : Condition) :
    Argument.behind ":comparator" condition.toArguments =
      (condition.comparator?.filter isExplicitComparator).toList := by
  cases condition with
  | header comparator m name keys =>
    rw [toArguments, List.cons_append, Argument.behind_tag (match_type_no_comparator m),
      comparatorArguments_eq, Argument.behind_named, Argument.behind_string]
    exact List.append_nil _
  | address comparator m part name keys | envelope comparator m part name keys =>
    rw [toArguments, List.cons_append, List.cons_append,
      Argument.behind_tag (match_type_no_comparator m),
      Argument.behind_tag (address_part_no_comparator part), comparatorArguments_eq,
      Argument.behind_named, Argument.behind_string]
    exact List.append_nil _
  | body comparator m transform keys =>
    rw [toArguments, List.cons_append, List.cons_append,
      Argument.behind_tag (match_type_no_comparator m),
      Argument.behind_tag (body_transform_no_comparator transform), comparatorArguments_eq,
      Argument.behind_named]
    exact List.append_nil _
  | size operator limit => cases operator <;> rfl
  | present names =>
    rcases names with _ | ⟨name, _ | ⟨next, rest⟩⟩
    · rfl
    · rfl
    · rfl
  | always => rfl
  | never => rfl

theorem Action.named_comparators (action : Action) :
    Argument.behind ":comparator" action.toArguments =
      (action.comparator?.filter isExplicitComparator).toList := by
  cases action with
  | deleteheader name value index last m comparator =>
    have tail : Argument.behind ":comparator"
        (.string name :: ((nonempty? value).map Argument.string).toList) = [] := by
      rw [Argument.behind_string]
      cases nonempty? value <;> rfl
    have matched : ∀ rest, Argument.behind ":comparator"
        ((m.map fun m => Argument.tag m.word).toList ++ rest) =
          Argument.behind ":comparator" rest := by
      intro rest
      cases m with
      | none => rfl
      | some m => exact Argument.behind_tag (match_type_no_comparator m)
    have index_no_tag : ∀ tag, index.map (fun n => Argument.number (toString n.toNat)) ≠
        some (.tag tag) := by
      cases index <;> simp
    rw [toArguments, List.append_assoc, List.append_assoc, List.append_assoc,
      Argument.behind_option (by decide) index_no_tag, Argument.behind_flag (by decide), matched,
      Argument.behind_named, tail, List.append_nil]
    rfl
  | fileinto mailbox create copy flags =>
    rw [toArguments, List.append_assoc, List.append_assoc, Argument.behind_flag (by decide)]
    have flagged : ∀ rest, Argument.behind ":comparator"
        ((if flags.isEmpty then [] else [.tag ":flags", .stringList flags]) ++ rest) =
          Argument.behind ":comparator" rest := by
      intro rest
      cases flags <;> rfl
    rw [flagged, Argument.behind_flag (by decide)]
    rfl
  | redirect address copy => cases copy <;> rfl
  | addheader name value last => cases last <;> rfl
  | vacation days subject message =>
    have days_no_tag : ∀ tag, (days.filter (· ≠ 0)).map
        (fun n => Argument.number (toString n.toNat)) ≠ some (.tag tag) := by
      cases days.filter (· ≠ 0) <;> simp
    have subject_no_tag : ∀ tag, (nonempty? subject).map Argument.string ≠ some (.tag tag) := by
      cases nonempty? subject <;> simp
    rw [toArguments, List.append_assoc, Argument.behind_option (by decide) days_no_tag,
      Argument.behind_option (by decide) subject_no_tag]
    rfl
  | _ => rfl

theorem filterMap_explicit {α : Type} (named : α → Option String) (items : List α) :
    (items.filterMap named).filter isExplicitComparator =
      items.flatMap fun item => ((named item).filter isExplicitComparator).toList := by
  rw [List.filter_filterMap, List.filterMap_eq_flatMap_toList]

namespace Policy

theorem named_by_test (policy : Policy) : policy.toTest.comparators =
    (policy.conditions.filterMap Condition.comparator?).filter isExplicitComparator := by
  have single : ∀ condition : Condition, condition.toTest.comparators =
      (condition.comparator?.filter isExplicitComparator).toList := by
    intro condition
    rw [Condition.toTest, Test.comparators, condition.named_comparators]
    exact List.append_nil _
  rw [filterMap_explicit]
  unfold toTest
  split
  · rename_i none
    rw [none]
    rfl
  · rename_i condition only
    rw [only, single, List.flatMap_singleton]
  · rw [Test.comparators, Test.comparatorsAll_eq, List.flatMap_map]
    simp only [single]
    rfl

theorem named_by_command (policy : Policy) (keyword : String) :
    (policy.toCommand keyword).comparators = policy.comparators := by
  have actions : Command.comparatorsAll (policy.actions.map Action.toCommand) =
      (policy.actions.filterMap Action.comparator?).filter isExplicitComparator := by
    rw [filterMap_explicit, Command.comparatorsAll_eq, List.flatMap_map]
    congr 1
    funext action
    rw [Action.toCommand, Command.comparators, action.named_comparators]
    simp [Test.comparatorsAll, Command.blockComparators]
  rw [toCommand, Command.comparators, Command.blockComparators, actions, Test.comparatorsAll,
    Test.comparatorsAll, named_by_test, comparators, List.filter_append, List.append_nil]
  rfl

theorem named_by_chain (policies : List Policy) :
    (chain policies).flatMap Command.comparators = policies.flatMap comparators := by
  cases policies with
  | nil => rfl
  | cons first rest => simp only [chain, List.flatMap_cons, List.flatMap_map, named_by_command]

end Policy

namespace RuleSet

/-- The comparators other than the default that active rules name, one for each use. -/
def comparatorUses (set : RuleSet) : List String :=
  set.activeRules.flatMap fun rule =>
    (rule.conditions.filterMap Condition.comparator? ++
      rule.actions.filterMap Action.comparator?).filter fun name =>
        name ≠ "" ∧ name ≠ "i;ascii-casemap"

theorem comparatorUses_eq (set : RuleSet) :
    set.comparatorUses = set.activeRules.flatMap fun rule => rule.toPolicy.comparators := by
  have explicit : (fun name : String => decide (name ≠ "" ∧ name ≠ "i;ascii-casemap")) =
      isExplicitComparator := by
    funext name
    exact Bool.decide_and ..
  rw [comparatorUses, explicit]
  rfl

/-- The two places that decide on comparators agree. -/
theorem toScript_comparators (set : RuleSet) : set.toScript.comparators = set.comparatorUses := by
  have required : set.requireCommands.flatMap Command.comparators = [] := by
    unfold requireCommands
    split <;> rfl
  rw [Script.comparators, toScript, Command.comparatorsAll_eq, List.flatMap_append, required,
    Policy.named_by_chain, List.flatMap_map, List.nil_append, comparatorUses_eq]

theorem first_uses_usedComparators (set : RuleSet) :
    FirstUses set.usedComparators set.comparatorUses := by
  rw [usedComparators, ← comparatorUses_eq]
  exact first_uses_eraseDups _

theorem mem_usedComparators {set : RuleSet} {name : String} (h : name ∈ set.usedComparators) :
    name ≠ "" ∧ name ≠ defaultComparator := by
  have used := (set.first_uses_usedComparators.used_iff name).mp h
  obtain ⟨rule, -, hn⟩ := List.mem_flatMap.mp used
  simpa [defaultComparator] using (List.mem_filter.mp hn).2

theorem word_no_comparator (capability : Capability) :
    ¬ "comparator-".toList <+: capability.word.toList := by
  cases capability <;> decide

theorem comparator_entry {set : RuleSet} {entry : String}
    (h : entry ∈ set.requirement .comparator) : "comparator-".toList <+: entry.toList := by
  obtain ⟨name, -, rfl⟩ := List.mem_map.mp h
  exact ⟨name.toList, String.toList_append.symm⟩

theorem requirement_other (set : RuleSet) {capability : Capability} (h : capability ≠ .comparator) :
    set.requirement capability = [capability.word] := by
  cases capability <;> first | rfl | exact absurd rfl h

theorem requirement_nodup (set : RuleSet) (capability : Capability) :
    (set.requirement capability).Nodup := by
  by_cases h : capability = .comparator
  · subst h
    refine List.Nodup.map ?_ (List.nodup_cons.mpr ⟨?_, set.first_uses_usedComparators.distinct⟩)
    · intro x y same
      exact (String.append_right_inj _).mp same
    · intro used
      exact (mem_usedComparators used).2 rfl
  · rw [requirement_other set h]
    exact List.nodup_singleton _

theorem requirement_disjoint (set : RuleSet) {capability other : Capability}
    (h : capability ≠ other) :
    (set.requirement capability).Disjoint (set.requirement other) := by
  intro entry hc ho
  by_cases one : capability = .comparator
  · subst one
    rw [requirement_other set h.symm, List.mem_singleton] at ho
    exact word_no_comparator other (ho ▸ comparator_entry hc)
  · rw [requirement_other set one, List.mem_singleton] at hc
    by_cases two : other = .comparator
    · subst two
      exact word_no_comparator capability (hc ▸ comparator_entry ho)
    · rw [requirement_other set two, List.mem_singleton] at ho
      exact h (Vocabulary.word_injective (hc.symm.trans ho))

theorem requires_nodup (set : RuleSet) : set.requires.Nodup := by
  refine List.nodup_flatMap.mpr ⟨fun capability _ => set.requirement_nodup capability, ?_⟩
  have distinct : Capability.all.Nodup := by decide
  exact (distinct.filter _).imp fun different => requirement_disjoint set different

/-- What a script requires has no entry twice. It is the words of the extensions that are on, in
their order, and in place of the one for comparators the default comparator and then those that are
used, which are the ones that the script names. -/
theorem requires_match_uses (set : RuleSet) :
    set.requires.Nodup ∧
    (∃ listed, FirstUses listed set.comparatorUses ∧
      set.requires = (Capability.all.filter fun c => set.extensions.isEnabledName c.word).flatMap
        (fun c => if c = .comparator then
            "comparator-i;ascii-casemap" :: listed.map ("comparator-" ++ ·)
          else [c.word]) ∧
      (set.Sized → ∃ script, Script.parse set.generate = .ok script ∧
        FirstUses listed script.comparators)) ∧
    (∀ name on, (∀ c : Capability, c.word ≠ name) →
      ({ set with extensions := set.extensions.setName name on } : RuleSet).requires =
        set.requires) ∧
    (set.extensions.isEnabledName "comparator" = false →
      ∀ entry ∈ set.requires, ¬ "comparator-".toList <+: entry.toList) := by
  refine ⟨set.requires_nodup, ⟨set.usedComparators, set.first_uses_usedComparators, ?_, ?_⟩, ?_, ?_⟩
  · unfold requires CapabilitySet.enabled
    congr 1
    funext capability
    cases capability <;> rfl
  · intro sized
    refine ⟨set.toScript, parse_generate sized, ?_⟩
    rw [toScript_comparators]
    exact set.first_uses_usedComparators
  · intro name on unknown
    have enabled : (set.extensions.setName name on).enabled = set.extensions.enabled := by
      unfold CapabilitySet.enabled
      congr 1
      funext capability
      rw [CapabilitySet.isEnabled, CapabilitySet.isEnabledName_setName, if_neg (unknown capability)]
      rfl
    rw [requires, enabled]
    rfl
  · intro off entry he
    obtain ⟨capability, hc, he⟩ := List.mem_flatMap.mp he
    have on : set.extensions.isEnabled capability = true := (List.mem_filter.mp hc).2
    have other : capability ≠ .comparator := by
      rintro rfl
      exact Bool.false_ne_true (off.symm.trans on)
    rw [requirement_other set other, List.mem_singleton] at he
    exact he ▸ word_no_comparator capability

/-- A filter that names comparators in tests and in an action, more than once, and in a rule that is
off. -/
def comparing : RuleSet :=
  ⟨[⟨⟨false, .anyof, [.header "i;unicode" .is "A" []], []⟩, ⟨"id_1"⟩⟩,
      ⟨⟨true, .anyof,
        [.header "i;octet" .is ":comparator" ["x"], .body "" .is .text [], .size .larger "1K"],
        [.deleteheader "A" none (some 0) true none (some "i;ascii-numeric")]⟩, ⟨"id_2"⟩⟩,
      ⟨⟨true, .allof, [.envelope "i;octet" .is .all "from" []],
        [.deleteheader "A" none none false none (some "i;ascii-casemap")]⟩, ⟨"id_3"⟩⟩],
    ((CapabilitySet.standard.set .comparator true).set .vacation true).setName "x-own" true⟩

theorem comparing_requires :
    comparing.requires = ["fileinto", "vacation", "comparator-i;ascii-casemap",
      "comparator-i;octet", "comparator-i;ascii-numeric"] ∧
    comparing.requires.Nodup ∧
    comparing.Sized ∧ ∃ listed, FirstUses listed comparing.comparatorUses ∧
      ∃ script, Script.parse comparing.generate = .ok script ∧
        FirstUses listed script.comparators := by
  have sized : comparing.Sized := by decide
  obtain ⟨distinct, ⟨listed, uses, -, named⟩, -, -⟩ := requires_match_uses comparing
  exact ⟨by decide +kernel, distinct, sized, listed, uses, named sized⟩

end RuleSet

end SieveRules
