import SieveRules.Proofs.Advice
import SieveRules.Proofs.Conflation
/-!
Rules that are not active, and the ids of rules, show nowhere. The script and what it requires read
off a filter the policies of its active rules and nothing else, and the advice on a filter reads at
each place the policy of an active rule, or that there is none.
-/

namespace SieveRules

def Rule.shown (rule : Rule) : Option Policy :=
  if rule.active then some rule.toPolicy else none

theorem Rule.shown_of_active {rule : Rule} (h : rule.active = true) :
    rule.shown = some rule.toPolicy :=
  if_pos h

theorem Rule.shown_of_inactive {rule : Rule} (h : rule.active = false) : rule.shown = none :=
  if_neg (by simp [h])

theorem Rule.shown_isSome (rule : Rule) : rule.shown.isSome = rule.active := by
  unfold shown
  cases rule.active <;> rfl

namespace RuleSet

/-- What there is to see of a filter: at each place of a rule its policy, if it is active. -/
def shown (set : RuleSet) : List (Option Policy) :=
  set.rules.map Rule.shown

theorem shown_active (set : RuleSet) :
    set.shown.filterMap id = set.activeRules.map Rule.toPolicy := by
  rw [shown, activeRules, List.filterMap_map, Function.id_comp]
  induction set.rules with
  | nil => rfl
  | cons rule rest ih =>
    rw [List.filter_cons]
    cases ha : rule.active with
    | true =>
      rw [List.filterMap_cons_some (Rule.shown_of_active ha), ih]
      rfl
    | false =>
      rw [List.filterMap_cons_none (Rule.shown_of_inactive ha), ih]
      rfl

theorem isEmpty_shown (set : RuleSet) : set.rules.isEmpty = set.shown.isEmpty :=
  List.isEmpty_map.symm

theorem hasActiveRules_shown (set : RuleSet) :
    set.hasActiveRules = set.shown.any Option.isSome := by
  rw [hasActiveRules, shown, List.any_map]
  congr
  funext rule
  exact rule.shown_isSome.symm

theorem usesAction_policies (set : RuleSet) (kind : ActionKind) :
    set.usesAction kind = (set.activeRules.map Rule.toPolicy).any fun policy =>
      policy.actions.any (·.kind = kind) := by
  rw [List.any_map]
  rfl

theorem usesTest_policies (set : RuleSet) (kind : ConditionKind) :
    set.usesTest kind = (set.activeRules.map Rule.toPolicy).any fun policy =>
      policy.conditions.any (·.kind = kind) := by
  rw [List.any_map]
  rfl

end RuleSet

/-- Lists of rules that are active at the same places, and whose active rules have the same policies
one by one, show the same. -/
theorem shown_determined {rules others : List Rule}
    (places : rules.map (·.active) = others.map (·.active))
    (policies : (rules.filter (·.active)).map Rule.toPolicy =
      (others.filter (·.active)).map Rule.toPolicy) :
    rules.map Rule.shown = others.map Rule.shown := by
  induction rules generalizing others with
  | nil =>
    obtain rfl := List.map_eq_nil_iff.mp places.symm
    rfl
  | cons rule rest ih =>
    cases others with
    | nil => cases places
    | cons other others =>
      obtain ⟨same, places⟩ := List.cons.inj places
      rw [List.filter_cons, List.filter_cons] at policies
      rw [List.map_cons, List.map_cons]
      cases ha : rule.active with
      | true =>
        have oa : other.active = true := same.symm.trans ha
        rw [if_pos ha, if_pos oa] at policies
        obtain ⟨policy, policies⟩ := List.cons.inj policies
        rw [Rule.shown_of_active ha, Rule.shown_of_active oa, policy, ih places policies]
      | false =>
        have oa : other.active = false := same.symm.trans ha
        rw [if_neg (by simp [ha]), if_neg (by simp [oa])] at policies
        rw [Rule.shown_of_inactive ha, Rule.shown_of_inactive oa, ih places policies]

theorem warningsFrom_map {α β : Type} {warnings : Nat → α → List Warning}
    {others : Nat → β → List Warning} {f : α → β}
    (h : ∀ index a, warnings index a = others index (f a)) (first : Nat) (items : List α) :
    warningsFrom warnings first items = warningsFrom others first (items.map f) := by
  induction items generalizing first with
  | nil => rfl
  | cons item rest ih => rw [warningsFrom, List.map_cons, warningsFrom, h, ih]

namespace RuleSet

variable {first second : RuleSet}

theorem warnings_shown (set : RuleSet) :
    warningsFrom (fun index rule => if rule.active then rule.toPolicy.warnings index else [])
        1 set.rules =
      warningsFrom (fun index shown => shown.elim [] (Policy.warnings index)) 1 set.shown := by
  refine warningsFrom_map ?_ 1 set.rules
  intro index rule
  unfold Rule.shown
  cases rule.active <;> rfl

theorem toScript_congr (extensions : first.extensions = second.extensions)
    (policies : first.activeRules.map Rule.toPolicy = second.activeRules.map Rule.toPolicy) :
    first.toScript = second.toScript := by
  have requires : first.requires = second.requires :=
    requires_congr (fun _ => by rw [extensions]) (by rw [policies])
  rw [toScript, toScript, requireCommands, requireCommands, requires, policies]

theorem validate_congr (extensions : first.extensions = second.extensions)
    (shown : first.shown = second.shown) : first.validate = second.validate := by
  have policies : first.activeRules.map Rule.toPolicy = second.activeRules.map Rule.toPolicy := by
    rw [← shown_active, ← shown_active, shown]
  simp only [validate, isEmpty_shown, hasActiveRules_shown, warnings_shown, usesAction_policies,
    usesTest_policies, allows, policies, shown, extensions]

/-- Filters with the same extensions, and with the same active rules up to ids, have one script and
require the same, whatever other rules they have. Where besides they have as many rules, with the
active ones in the same places, the same advice is given on them. -/
theorem inactive_rules_unseen (first second : RuleSet)
    (extensions : first.extensions = second.extensions)
    (policies : first.activeRules.map Rule.toPolicy = second.activeRules.map Rule.toPolicy) :
    first.generate = second.generate ∧ first.requires = second.requires ∧
    (first.rules.map (·.active) = second.rules.map (·.active) →
      first.validate = second.validate) := by
  have scripts := toScript_congr extensions policies
  refine ⟨congrArg Script.render scripts, ?_, ?_⟩
  · exact requires_congr (fun _ => by rw [extensions]) (congrArg Policy.chain policies)
  · intro places
    exact validate_congr extensions (shown_determined places policies)

/-- One rule acts. The others lack an extension and a mailbox, and name a comparator. -/
def halfAsleep : RuleSet :=
  ⟨[⟨⟨false, .anyof, [.envelope "i;octet" .is .all "from" ["a"]], [.reject "No"]⟩, ⟨"a"⟩⟩,
      ⟨⟨true, .allof, [.header "i;unicode-casemap" .contains "" ["b"]], []⟩, ⟨"b"⟩⟩,
      ⟨⟨false, .anyof, [], [.fileinto "" false false []]⟩, ⟨"b"⟩⟩],
    CapabilitySet.standard.set .comparator true⟩

def otherwiseAsleep : RuleSet :=
  ⟨[⟨⟨false, .allof, [], []⟩, ⟨"c"⟩⟩,
      ⟨⟨true, .allof, [.header "i;unicode-casemap" .contains "" ["b"]], []⟩, ⟨"d"⟩⟩,
      ⟨⟨false, .anyof, [.header "i;other" .is "" []], [.redirect "" true]⟩, ⟨"c"⟩⟩],
    CapabilitySet.standard.set .comparator true⟩

theorem half_asleep_unseen :
    halfAsleep.ids ≠ otherwiseAsleep.ids ∧ halfAsleep.policies ≠ otherwiseAsleep.policies ∧
    halfAsleep.generate = otherwiseAsleep.generate ∧
    otherwiseAsleep.requires = ["fileinto", "comparator-i;ascii-casemap",
      "comparator-i;unicode-casemap"] ∧
    halfAsleep.requires = otherwiseAsleep.requires ∧
    halfAsleep.validate = [.emptyHeaderName 2 1, .noActions 2] := by
  obtain ⟨script, requires, advice⟩ :=
    inactive_rules_unseen halfAsleep otherwiseAsleep rfl (by decide)
  exact ⟨by decide, by decide, script, by decide, requires, (advice (by decide)).trans (by decide)⟩

end RuleSet

end SieveRules
