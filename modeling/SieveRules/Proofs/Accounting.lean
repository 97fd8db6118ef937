import SieveRules.Proofs.FirstMatch
/-!
Nothing of a script is lost without a word. Every branch is a rule of the filter that is read, or a
warning with the number of the branch; every command in the block of a rule is an action of the rule,
or a warning with the name of the command. What the first `require` names is switched on, and
nothing else is.
-/

namespace SieveRules

/-- One by one, the commands of a block are actions of the kinds they name, or warnings with their
names in lower case; these are commands that name no action, or one that rules do not recover. -/
inductive Kept : List Command → List Action → List Event → Prop where
  | nil : Kept [] [] []
  | action {command : Command} {rest : List Command} {action : Action} {actions : List Action}
      {warnings : List Event} (hk : Vocabulary.named? command.name = some action.kind)
      (later : Kept rest actions warnings) : Kept (command :: rest) (action :: actions) warnings
  | dropped {command : Command} {rest : List Command} {actions : List Action}
      {warnings : List Event}
      (hk : ∀ kind, Vocabulary.named? command.name = some kind →
        kind = ActionKind.addheader ∨ kind = ActionKind.deleteheader)
      (later : Kept rest actions warnings) :
      Kept (command :: rest) actions (.actionDropped (Text.lowerCase command.name) :: warnings)

/-- One by one, branches that are numbered from some number on are policies, with the warnings of
their blocks, or warnings with their numbers. Of a branch that is skipped, actions may have been
dropped before. -/
inductive Accounted : Nat → List Command → List Policy → List Event → Prop where
  | nil {number : Nat} : Accounted number [] [] []
  | rule {number : Nat} {branch : Command} {branches : List Command} {policy : Policy}
      {policies : List Policy} {dropped warnings : List Event}
      (kept : Kept (branch.block.getD []) policy.actions dropped)
      (later : Accounted (number + 1) branches policies warnings) :
      Accounted number (branch :: branches) (policy :: policies) (dropped ++ warnings)
  | skipped {number : Nat} {branch : Command} {branches : List Command} {policies : List Policy}
      {reason : Unrecoverable} {dropped warnings : List Event}
      (before : ∀ event ∈ dropped, ∃ name, event = .actionDropped name)
      (later : Accounted (number + 1) branches policies warnings) :
      Accounted number (branch :: branches) policies
        (dropped ++ .blockSkipped number reason :: warnings)

namespace Event

def isBlockSkipped : Event → Bool
  | blockSkipped .. => true
  | _ => false

def isWarning (event : Event) : Bool :=
  event.level = .warn

theorem count_skipped (events : List Event) :
    (events.filter isWarning).countP isBlockSkipped = events.countP isBlockSkipped := by
  rw [List.countP_filter]
  apply List.countP_congr
  intro event _
  cases event <;> simp [isBlockSkipped, isWarning, level]

end Event

theorem Kept.none_skipped {commands : List Command} {actions : List Action} {warnings : List Event}
    (h : Kept commands actions warnings) : warnings.countP Event.isBlockSkipped = 0 := by
  induction h with
  | nil => rfl
  | action _ _ ih => exact ih
  | dropped _ _ ih => simpa [Event.isBlockSkipped] using ih

theorem Accounted.count {number : Nat} {branches : List Command} {policies : List Policy}
    {warnings : List Event} (h : Accounted number branches policies warnings) :
    policies.length + warnings.countP Event.isBlockSkipped = branches.length := by
  induction h with
  | nil => rfl
  | rule kept _ ih =>
    rw [List.countP_append, kept.none_skipped, List.length_cons, List.length_cons, ← ih]
    omega
  | @skipped _ _ _ _ reason dropped _ before _ ih =>
    have none : dropped.countP Event.isBlockSkipped = 0 := by
      rw [List.countP_eq_zero]
      intro event he
      obtain ⟨name, rfl⟩ := before event he
      simp [Event.isBlockSkipped]
    rw [List.countP_append, none, List.countP_cons_of_pos rfl, List.length_cons, ← ih]
    omega

theorem Text.lower_lower (c : Char) : lower (lower c) = lower c := by
  have kept : ∀ d : Char, ¬ (d.val ≥ 'A'.val ∧ d.val ≤ 'Z'.val) → d.toLower = d := by
    intro d hd
    unfold Char.toLower
    exact dif_neg hd
  unfold lower
  by_cases hk : c = '\u212a'
  · simp [hk]
  · rw [if_neg hk]
    by_cases hu : c.val ≥ 'A'.val ∧ c.val ≤ 'Z'.val
    · -- behind the capitals there are no more capitals
      have least : 65 ≤ c.val.toNat := hu.1
      have most : c.val.toNat ≤ 90 := hu.2
      have moved : c.toLower.val.toNat = c.val.toNat + 32 := by
        have bounded : c.val.toNat + 32 < 2 ^ 32 := by omega
        unfold Char.toLower
        rw [dif_pos hu]
        exact (UInt32.toNat_add c.val 32).trans (Nat.mod_eq_of_lt bounded)
      have plain : c.toLower ≠ '\u212a' := by
        intro he
        rw [he] at moved
        have kelvin : 8490 = c.val.toNat + 32 := moved
        omega
      have stays : ¬ (c.toLower.val ≥ 'A'.val ∧ c.toLower.val ≤ 'Z'.val) := by
        rintro ⟨-, h⟩
        have capital : c.toLower.val.toNat ≤ 90 := h
        omega
      rw [if_neg plain, kept _ stays]
    · rw [kept c hu, if_neg hk, kept c hu]

theorem Text.lowerCase_lowerCase (s : String) : lowerCase (lowerCase s) = lowerCase s := by
  simp [lowerCase, Function.comp_def, Text.lower_lower]

namespace Command

theorem Form.lower {test : List Token → Test → Prop} {block : List Token → List Command → Prop}
    {ts : List Token} {command : Command} (h : Form test block ts command) :
    Text.lowerCase command.name = command.name := by
  cases h with
  | line hh | block hh _ =>
    cases hh
    exact Text.lowerCase_lowerCase _

theorem Form.block_lower {levels : Nat} {test : List Token → Test → Prop} {ts : List Token}
    {command : Command} (h : Form test (BlockDerives levels) ts command) :
    ∀ c ∈ command.block.getD [], Text.lowerCase c.name = c.name := by
  cases h with
  | line _ => simp
  | block _ hb =>
    cases levels with
    | zero => exact hb.elim
    | succ levels =>
      obtain ⟨us, -, commands⟩ := hb
      intro c hc
      obtain ⟨vs, -, form⟩ := commands.item_of_mem hc
      exact form.lower

end Command

theorem Script.block_lower {text : String} {script : Script} (h : Script.parse text = .ok script)
    {command : Command} (hc : command ∈ script.commands) :
    ∀ c ∈ command.block.getD [], Text.lowerCase c.name = c.name := by
  obtain ⟨spans, -, derived⟩ := Script.parse_ok_iff.mp h
  obtain ⟨ts, -, form⟩ := derived.item_of_mem hc
  exact form.block_lower

theorem foldUnits_told {α : Type} {step : α → ArgumentUnit → α × Option Event} {P : Event → Prop}
    (h : ∀ state unit, ∀ event ∈ (step state unit).2, P event) (state : α)
    (units : List ArgumentUnit) : ∀ event ∈ (foldUnits step state units).2, P event := by
  induction units generalizing state with
  | nil => simp [foldUnits]
  | cons unit rest ih =>
    intro event he
    rcases List.mem_append.mp he with he | he
    · exact h state unit event (Option.mem_toList.mp he)
    · exact ih _ event he

namespace FileintoArguments

theorem add_told (found : FileintoArguments) (unit : ArgumentUnit) :
    ∀ event ∈ (found.add unit).2, event.isWarning = false := by
  unfold add
  split <;> simp [Event.isWarning, Event.level]

end FileintoArguments

namespace RedirectArguments

theorem add_told (found : RedirectArguments) (unit : ArgumentUnit) :
    ∀ event ∈ (found.add unit).2, event.isWarning = false := by
  unfold add
  split <;> simp [Event.isWarning, Event.level]

end RedirectArguments

namespace VacationArguments

theorem add_told (found : VacationArguments) (unit : ArgumentUnit) :
    ∀ event ∈ (found.add unit).2, event.isWarning = false := by
  unfold add
  repeat' split
  all_goals simp [Event.isWarning, Event.level]

end VacationArguments

namespace Command

theorem actionOf_told (arguments : List Argument) (kind : ActionKind) :
    ∀ event ∈ (actionOf arguments kind).2, event.isWarning = false := by
  cases kind with
  | fileinto => exact foldUnits_told FileintoArguments.add_told _ _
  | redirect => exact foldUnits_told RedirectArguments.add_told _ _
  | vacation => exact foldUnits_told VacationArguments.add_told _ _
  | _ => simp [actionOf]

theorem actionOf_kind {arguments : List Argument} {kind : ActionKind} {action : Action}
    (h : (actionOf arguments kind).1 = some action) : action.kind = kind := by
  cases kind <;> cases h <;> rfl

theorem actionOf_none {arguments : List Argument} {kind : ActionKind}
    (h : (actionOf arguments kind).1 = none) : kind = .addheader ∨ kind = .deleteheader := by
  cases kind <;> simp_all [actionOf]

theorem toAction_cases (command : Command) :
    (∃ action, command.toAction.1 = some action ∧
      Vocabulary.named? command.name = some action.kind ∧
      command.toAction.2.filter Event.isWarning = []) ∨
    command.toAction = (none, [.actionDropped command.name]) ∧
      ∀ kind, Vocabulary.named? command.name = some kind →
        kind = ActionKind.addheader ∨ kind = ActionKind.deleteheader := by
  cases hn : (Vocabulary.named? command.name : Option ActionKind) with
  | none => exact .inr ⟨by simp [toAction, hn], by simp⟩
  | some kind =>
    have told := actionOf_told command.arguments kind
    rcases ha : actionOf command.arguments kind with ⟨_ | action, events⟩
    · refine .inr ⟨by simp [toAction, hn, ha], ?_⟩
      rintro kind' ⟨⟩
      exact actionOf_none (congrArg Prod.fst ha)
    · refine .inl ⟨action, by simp [toAction, hn, ha], ?_, ?_⟩
      · rw [actionOf_kind (congrArg Prod.fst ha)]
      · rw [ha] at told
        rw [List.filter_eq_nil_iff]
        intro event he
        simp [told event (by simpa [toAction, hn, ha] using he)]

theorem kept_of_toActions {body : List Command} {actions : List Action}
    (lower : ∀ c ∈ body, Text.lowerCase c.name = c.name) (h : (toActions body).1 = .ok actions) :
    Kept body actions ((toActions body).2.filter Event.isWarning) := by
  induction body generalizing actions with
  | nil =>
    cases h
    exact .nil
  | cons command rest ih =>
    rw [toActions] at h ⊢
    split at h
    · cases h
    · rename_i flat
      rw [if_neg flat]
      obtain ⟨later, hl, rfl⟩ := except_map_ok h
      have kept := ih (fun c hc => lower c (List.mem_cons_of_mem _ hc)) hl
      simp only [List.filter_append]
      rcases command.toAction_cases with ⟨action, ha, hk, told⟩ | ⟨read, hk⟩
      · rw [ha, told]
        exact .action hk kept
      · rw [read, ← lower command List.mem_cons_self]
        exact .dropped hk kept

theorem toActions_told (body : List Command) :
    ∀ event ∈ (toActions body).2, event.isWarning = true → ∃ name, event = .actionDropped name := by
  induction body with
  | nil => simp [toActions]
  | cons command rest ih =>
    rw [toActions]
    split
    · simp
    · intro event he hw
      rcases List.mem_append.mp he with he | he
      · rcases command.toAction_cases with ⟨-, -, -, told⟩ | ⟨read, -⟩
        · rw [List.filter_eq_nil_iff] at told
          exact absurd hw (told event he)
        · rw [read] at he
          exact ⟨command.name, List.mem_singleton.mp he⟩
      · exact ih event he hw

theorem toPolicy_cases {branch : Command}
    (lower : ∀ c ∈ branch.block.getD [], Text.lowerCase c.name = c.name) :
    (∃ policy, branch.toPolicy.1 = .ok policy ∧
      Kept (branch.block.getD []) policy.actions (branch.toPolicy.2.filter Event.isWarning)) ∨
    ∃ reason, branch.toPolicy.1 = .error reason ∧
      ∀ event ∈ branch.toPolicy.2.filter Event.isWarning, ∃ name, event = .actionDropped name := by
  unfold toPolicy
  split
  · rename_i reason _
    exact .inr ⟨reason, rfl, by simp⟩
  · rename_i combinator conditions _
    cases ha : (toActions (branch.block.getD [])).1 with
    | ok actions =>
      refine .inl ⟨⟨true, combinator, conditions, actions⟩, by simp [ha, Except.map], ?_⟩
      exact kept_of_toActions lower ha
    | error reason =>
      refine .inr ⟨reason, by simp [ha, Except.map], ?_⟩
      intro event he
      obtain ⟨he, hw⟩ := List.mem_filter.mp he
      exact toActions_told _ event he hw

end Command

namespace Script

theorem recoverFrom_accounted {required : Bool} {block : Nat} {commands : List Command}
    (lower : ∀ command ∈ commands, ∀ c ∈ command.block.getD [], Text.lowerCase c.name = c.name) :
    Accounted (block + 1) (commands.filter Command.isBranch)
      (recoverFrom required block commands).1
      ((recoverFrom required block commands).2.filter Event.isWarning) := by
  induction commands generalizing required block with
  | nil => exact .nil
  | cons command rest ih =>
    have later := fun c hc => lower c (List.mem_cons_of_mem _ hc)
    by_cases hn : command.name = "require"
    · have plain : command.isBranch = false := by simp [Command.isBranch, hn]
      have silent : (if required then [Event.requireIgnored] else []).filter Event.isWarning = [] := by
        cases required <;> rfl
      rw [recoverFrom, if_pos hn, List.filter_cons_of_neg (by simp [plain]), List.filter_append,
        silent, List.nil_append]
      exact ih later
    · by_cases hb : command.isBranch = true
      · rw [recoverFrom, if_neg hn, if_pos hb, List.filter_cons_of_pos hb]
        rcases Command.toPolicy_cases (lower command List.mem_cons_self) with
          ⟨policy, hp, kept⟩ | ⟨reason, hp, before⟩
        · simp only [hp, List.filter_append]
          exact .rule kept (ih later)
        · have skip : (Event.blockSkipped (block + 1) reason).isWarning = true := rfl
          simp only [hp, List.filter_append, List.filter_cons_of_pos skip]
          exact .skipped before (ih later)
      · rw [recoverFrom, if_neg hn, if_neg hb, List.filter_cons_of_neg hb,
          List.filter_cons_of_neg (by simp [Event.isWarning, Event.level])]
        exact ih later

theorem outline_error_iff {script : Script} {e : ScriptError} :
    script.outline.1 = .error e ↔ script.commands.any Command.isBranch = false ∧ e = .noBlocks := by
  unfold outline
  by_cases hb : script.commands.any Command.isBranch = true
  · simp [hb]
  · simp only [Bool.not_eq_true] at hb
    simp [hb, eq_comm]

theorem get?_extensions (script : Script) (name : String) (on : Bool) :
    script.extensions.flags.get? name = some on ↔ on = true ∧
      ∃ command, script.commands.find? (·.name = "require") = some command ∧
        ∃ argument ∈ command.arguments, ∃ names, argument.strings? = some names ∧
          ∃ required ∈ names, requiredExtension required = name := by
  unfold extensions
  cases hf : script.commands.find? (·.name = "require") with
  | none => simp [CapabilitySet.empty, EmptyCollection.emptyCollection]
  | some command =>
    have listed : name ∈ command.requiredNames.map requiredExtension ↔
        ∃ argument ∈ command.arguments, ∃ names, argument.strings? = some names ∧
          ∃ required ∈ names, requiredExtension required = name := by
      simp only [Command.requiredNames, List.mem_map, List.mem_flatten, List.mem_filterMap]
      constructor
      · rintro ⟨required, ⟨names, ⟨argument, ha, hs⟩, hr⟩, hn⟩
        exact ⟨argument, ha, names, hs, required, hr, hn⟩
      · rintro ⟨argument, ha, names, hs, required, hr, hn⟩
        exact ⟨required, ⟨names, ⟨argument, ha, hs⟩, hr⟩, hn⟩
    simp only [CapabilitySet.get?_foldl_require, Option.some.injEq, exists_eq_left', ← listed]
    by_cases hn : name ∈ command.requiredNames.map requiredExtension
    · simp [hn, eq_comm]
    · simp [hn, CapabilitySet.empty, EmptyCollection.emptyCollection]

end Script

namespace RuleSet

variable {text : String} {script : Script}

theorem parse_noBlocks_iff (h : Script.parse text = .ok script) (source : IdSource) :
    (parse text source).1 = .error .noBlocks ↔ script.commands.any Command.isBranch = false := by
  have outlined : (Outline.parse text).1 = script.outline.1 := by
    rw [Outline.parse, h]
  constructor
  · intro failed
    have outline : (Outline.parse text).1 = .error .noBlocks := by
      cases ho : (Outline.parse text).1 with
      | error e => simpa [parse, ho, Except.map] using failed
      | ok outline => simp [parse, ho, Except.map] at failed
    exact (Script.outline_error_iff.mp (outlined.symm.trans outline)).1
  · intro none
    have outline := outlined.trans (Script.outline_error_iff.mpr ⟨none, rfl⟩)
    simp [parse, outline, Except.map]

theorem parse_branches (h : Script.parse text = .ok script)
    (branches : script.commands.any Command.isBranch = true) (source : IdSource) :
    ∃ set source', (parse text source).1 = .ok (set, source') ∧
      set.policies = (Script.recoverFrom false 0 script.commands).1 ∧
      set.extensions = script.extensions := by
  have outlined : (Outline.parse text).1 = script.outline.1 := by
    rw [Outline.parse, h]
  have recovered := outlined.trans (Script.outline_ok_iff.mpr ⟨branches, rfl⟩)
  obtain ⟨set, source', read, same⟩ := @parse_ok _ source _ recovered
  refine ⟨set, source', read, ?_, congrArg Outline.extensions same⟩
  exact (congrArg Outline.policies same).trans (Script.recoverFrom_policies _).symm

/-- Reading a script that parses fails only where there is no branch, and else accounts for each
branch, in order, by a rule or by a warning with its number, and for each command of a rule's block
by an action or by a warning with its name. The extensions are those the first `require` names. -/
theorem recovery_accounts (text : String) (script : Script) (source : IdSource)
    (h : Script.parse text = .ok script) :
    ((parse text source).1 = .error .noBlocks ↔ script.commands.countP Command.isBranch = 0) ∧
    (script.commands.countP Command.isBranch ≠ 0 →
      ∃ set source', (parse text source).1 = .ok (set, source') ∧
        Accounted 1 (script.commands.filter Command.isBranch) set.policies
          ((parse text source).2.filter Event.isWarning) ∧
        set.rules.length + (parse text source).2.countP Event.isBlockSkipped =
          script.commands.countP Command.isBranch ∧
        ∀ name on, set.extensions.flags.get? name = some on ↔ on = true ∧
          ∃ command, script.commands.find? (·.name = "require") = some command ∧
            ∃ argument ∈ command.arguments, ∃ names, argument.strings? = some names ∧
              ∃ required ∈ names, requiredExtension required = name) := by
  have told : (parse text source).2 = (Script.recoverFrom false 0 script.commands).2 :=
    Outline.parse_events h
  have branches : script.commands.any Command.isBranch = false ↔
      script.commands.countP Command.isBranch = 0 := by
    simp [List.countP_eq_zero]
  refine ⟨(parse_noBlocks_iff h source).trans branches, ?_⟩
  intro some
  have any : script.commands.any Command.isBranch = true := by
    rw [← Bool.not_eq_false, branches]
    exact some
  obtain ⟨set, source', read, policies, extensions⟩ := parse_branches h any source
  have accounted := @Script.recoverFrom_accounted false 0 script.commands
    fun command hc => Script.block_lower h hc
  rw [← policies, ← told] at accounted
  refine ⟨set, source', read, accounted, ?_, ?_⟩
  · have same : set.policies.length = set.rules.length := List.length_map Rule.toPolicy
    have count := accounted.count
    rwa [Event.count_skipped, same, ← List.countP_eq_length_filter] at count
  · rw [extensions]
    exact script.get?_extensions

/-- Two branches that no rule can hold, and two rules of which actions are dropped. -/
def mixed : String :=
  "REQUIRE [\"fileinto\", \"comparator-i;octet\"]; require \"body\";\n" ++
    "if size :over 10 \x7b keep; \x7d\n" ++
    "elsif header \"Subject\" \"a\" \x7b Notify \"b\"; FileInto \"c\"; addheader \"D\" \"e\"; \x7d\n" ++
    "keep; else \x7b notify; if true \x7b stop; \x7d \x7d\n" ++
    "IF anyof (true, false) \x7b discard; require \"x\"; \x7d"

theorem mixed_accounts :
    ∃ script, Script.parse mixed = .ok script ∧ script.commands.countP Command.isBranch = 4 ∧
      ∃ set source', (parse mixed (.startingAt 1)).1 = .ok (set, source') ∧
        Accounted 1 (script.commands.filter Command.isBranch)
          [⟨true, .allof, [.header defaultComparator .is "Subject" ["a"]],
              [.fileinto "c" false false []]⟩,
            ⟨true, .anyof, [.always, .never], [.discard]⟩]
          ((parse mixed (.startingAt 1)).2.filter Event.isWarning) ∧
        2 + (parse mixed (.startingAt 1)).2.countP Event.isBlockSkipped = 4 ∧
        set.extensions.flags.get? "comparator" = some true := by
  have found : (Script.parse mixed).toOption.map
      (fun script => (script.commands.countP Command.isBranch, script.outline.1.toOption)) =
        some (4, some
          ⟨[⟨true, .allof, [.header defaultComparator .is "Subject" ["a"]],
                [.fileinto "c" false false []]⟩,
              ⟨true, .anyof, [.always, .never], [.discard]⟩],
            ["fileinto", "comparator-i;octet"].foldl .require .empty⟩) := by
    decide +kernel
  obtain ⟨script, hs, read⟩ := Option.map_eq_some_iff.mp found
  have hs := except_ok_of_toOption hs
  obtain ⟨four, outline⟩ := Prod.mk.inj read
  have outlined : (Outline.parse mixed).1 = script.outline.1 := by
    rw [Outline.parse, hs]
  obtain ⟨set, source', read, accounted, count, -⟩ :=
    (recovery_accounts mixed script (.startingAt 1) hs).2 (by rw [four]; decide)
  have same : set.outline = _ := Except.ok.inj
    ((outline_of_parse read).symm.trans (outlined.trans (except_ok_of_toOption outline)))
  have policies : set.policies = _ := congrArg Outline.policies same
  have extensions : set.extensions = _ := congrArg Outline.extensions same
  have two : set.rules.length = 2 :=
    (List.length_map Rule.toPolicy).symm.trans (congrArg List.length policies)
  rw [policies] at accounted
  rw [two, four] at count
  refine ⟨script, hs, four, set, source', read, accounted, count, ?_⟩
  rw [extensions]
  rfl

end RuleSet

end SieveRules
