import SieveRules.Proofs.ControlFlow
/-!
Chains of branches and the first rule that applies. A filter keeps no chains apart, so the filter
that is read from a script does what the script does up to the end of the chain that acts first. The
script of a filter is one chain, and does what the filter does.
-/

namespace SieveRules

variable {σ : Assignment}

/-- The commands are `require`s, and branches that give these policies with nothing to tell. -/
inductive Gives : List Command → List Policy → Prop where
  | nil : Gives [] []
  | require {command : Command} {rest : List Command} {policies : List Policy} :
      command.name = "require" → Gives rest policies → Gives (command :: rest) policies
  | branch {command : Command} {rest : List Command} {policy : Policy} {policies : List Policy} :
      command.isBranch = true → command.toPolicy = (.ok policy, []) → Gives rest policies →
      Gives (command :: rest) (policy :: policies)

theorem gives_of_silent {required : Bool} {block : Nat} {commands : List Command}
    (h : (Script.recoverFrom required block commands).2 = []) :
    Gives commands (Script.recoverFrom required block commands).1 := by
  induction commands generalizing required block with
  | nil => exact .nil
  | cons command rest ih =>
    rw [Script.recoverFrom] at h ⊢
    by_cases hn : command.name = "require"
    · rw [if_pos hn] at h ⊢
      exact .require hn (ih (List.append_eq_nil_iff.mp h).2)
    · by_cases hb : command.isBranch = true
      · rw [if_neg hn, if_pos hb] at h ⊢
        rcases hp : command.toPolicy with ⟨reason | policy, told⟩
        · rw [hp] at h
          exact absurd (List.append_eq_nil_iff.mp h).2 (List.cons_ne_nil _ _)
        · rw [hp] at h
          obtain ⟨rfl, later⟩ := List.append_eq_nil_iff.mp h
          exact .branch hb hp (ih later)
      · rw [if_neg hn, if_neg hb] at h
        cases h

namespace Command

theorem run_of_branch {command : Command} (hb : command.isBranch = true) (chain : Chain) :
    command.run σ chain =
      (if chain.tries command.name && command.applies σ then runBlock σ command.block else .idle,
        chain.after command.name (chain.tries command.name && command.applies σ)) := by
  obtain ⟨name, arguments, tests, block⟩ := command
  rw [Command.run]
  simp only [hb, if_true]

theorem run_of_if {command : Command} (hi : command.name = "if") (chain : Chain) :
    command.run σ chain = command.run σ .closed := by
  have branch : command.isBranch = true := by simp [isBranch, hi]
  rw [run_of_branch branch, run_of_branch branch]
  simp [Chain.after, Chain.tries, hi]

theorem run_of_require {command : Command} (hn : command.name = "require") (chain : Chain) :
    command.run σ chain = (.idle, .closed) := by
  have plain : command.isBranch = false := by simp [isBranch, hn]
  obtain ⟨name, arguments, tests, block⟩ := command
  rw [Command.run]
  simp only [plain, Bool.false_eq_true, if_false, if_pos hn]

theorem areChained_branch {command : Command} {rest : List Command} {isOpen : Bool}
    (hb : command.isBranch = true) (h : areChained isOpen (command :: rest) = true) :
    (command.name = "if" ∨ isOpen = true) ∧ areChained (command.name ≠ "else") rest = true := by
  rw [areChained] at h
  have names : command.name = "if" ∨ command.name = "elsif" ∨ command.name = "else" := by
    simpa [isBranch] using hb
  rcases names with hn | hn | hn
  · simpa [hn] using h
  · simpa [hn] using h
  · simpa [hn] using h

theorem runAll_skips {commands : List Command} {policies : List Policy}
    (h : Gives commands policies) {chain : Chain} (hc : chain ≠ .untaken) :
    runAll σ chain commands = runAll σ .closed (commands.dropWhile (·.name ≠ "if")) := by
  induction h generalizing chain with
  | nil => rfl
  | @require command rest policies hn _ ih =>
    rw [runAll, run_of_require hn, List.dropWhile_cons, if_pos (by simp [hn])]
    exact ih (by decide)
  | @branch command rest policy policies hb hp _ ih =>
    rw [List.dropWhile_cons]
    by_cases hi : command.name = "if"
    · rw [if_neg (by simp [hi]), runAll, runAll, run_of_if hi]
    · have untried : chain.tries command.name = false := by simp [Chain.tries, hi, hc]
      have stays : chain.after command.name false ≠ .untaken := by
        unfold Chain.after
        split
        · decide
        · simpa [untried] using hc
      rw [if_pos (by simp [hi]), runAll, run_of_branch hb, untried]
      exact ih stays

/-- Up to the end of the chain that acts first, chained branches perform what their rules do. -/
theorem runAll_of_gives (σ : Assignment) {commands : List Command} {policies : List Policy}
    (h : Gives commands policies) {isOpen : Bool} (hc : areChained isOpen commands = true)
    (hn : ∀ command ∈ commands, command.asksAnyOfNone = false) :
    (runAll σ (if isOpen then .untaken else .closed) commands).map (·.toAction.1) =
      ((Policy.runFirst σ policies).map some).andThen
        ((runAll σ .closed (behindActing σ commands)).map (·.toAction.1)) := by
  induction h generalizing isOpen with
  | nil => rfl
  | @require command rest policies hr _ ih =>
    have plain : command.isBranch = false := by simp [isBranch, hr]
    rw [areChained, if_neg (by simp [hr]), if_neg (by simp [hr]), if_neg (by simp [hr])] at hc
    rw [runAll, run_of_require hr, behindActing, plain]
    exact ih hc fun command hm => hn command (List.mem_cons_of_mem _ hm)
  | @branch command rest policy policies hb hp later ih =>
    obtain ⟨active, same, block⟩ := branch_of_toPolicy σ hp (hn command List.mem_cons_self)
    obtain ⟨opened, chained⟩ := areChained_branch hb hc
    have tries : (if isOpen then Chain.untaken else .closed).tries command.name = true := by
      rcases opened with hi | ho
      · simp [Chain.tries, hi]
      · simp [Chain.tries, ho]
    rw [runAll, run_of_branch hb, tries, Policy.runFirst_cons, active, same, behindActing, hb]
    simp only [Bool.true_and]
    by_cases ha : command.applies σ = true
    · have left : (if isOpen then Chain.untaken else .closed).after command.name true ≠ .untaken := by
        unfold Chain.after
        split <;> decide
      simp only [ha, if_true]
      rw [Run.map_andThen, block, runAll_skips later left]
    · have other : command.name ≠ "else" := by
        intro he
        simp [applies, he] at ha
      have stays : (if isOpen then Chain.untaken else .closed).after command.name false = .untaken := by
        simp [Chain.after, other, tries]
      simp only [ha, Bool.false_eq_true, if_false, stays, Run.idle_andThen]
      simp only [other, ne_eq, not_false_eq_true, decide_true] at chained
      exact ih chained fun command hm => hn command (List.mem_cons_of_mem _ hm)

theorem dropWhile_no_if {commands : List Command} (h : commands.countP (·.name = "if") = 0) :
    commands.dropWhile (·.name ≠ "if") = [] := by
  induction commands with
  | nil => rfl
  | cons command rest ih =>
    rw [List.countP_cons] at h
    have other : command.name ≠ "if" := by
      intro hi
      simp [hi] at h
    rw [List.dropWhile_cons, if_pos (by simp [other])]
    exact ih (by omega)

theorem behindActing_one_chain {commands : List Command} {isOpen : Bool}
    (hc : areChained isOpen commands = true)
    (h : isOpen.toNat + commands.countP (·.name = "if") ≤ 1) :
    behindActing σ commands = [] := by
  induction commands generalizing isOpen with
  | nil => rfl
  | cons command rest ih =>
    rw [List.countP_cons] at h
    rw [behindActing]
    by_cases hb : command.isBranch = true
    · obtain ⟨opened, chained⟩ := areChained_branch hb hc
      have last : rest.countP (·.name = "if") = 0 := by
        rcases opened with hi | ho
        · simp only [hi, decide_true, if_true] at h
          omega
        · rw [ho, Bool.toNat_true] at h
          omega
      split
      · exact dropWhile_no_if last
      · exact ih chained (by rw [last]; exact Bool.toNat_le _)
    · have plain : command.name ≠ "if" ∧ command.name ≠ "elsif" ∧ command.name ≠ "else" := by
        simpa [isBranch] using hb
      rw [areChained, if_neg plain.1, if_neg plain.2.1, if_neg plain.2.2] at hc
      rw [if_neg (by simp [hb])]
      exact ih hc (by rw [Bool.toNat_false]; omega)

end Command

namespace Assignment

/-- The truth values of conditions are those of what is written for them. -/
def filled (σ : Assignment) : Assignment where
  condition := fun condition => σ.condition condition.filled
  other := σ.other
  always := σ.always

end Assignment

namespace Policy

theorem applies_recovered (policy : Policy) :
    policy.recovered.applies σ = policy.applies σ.filled := by
  obtain ⟨active, combinator, conditions, actions⟩ := policy
  rcases conditions with _ | ⟨condition, _ | ⟨next, rest⟩⟩
  · simp [recovered, applies, σ.always]
  · cases combinator <;> simp [recovered, applies, Assignment.filled]
  · have several : ¬ rest.length + 1 + 1 < 2 := by omega
    cases combinator <;> simp [recovered, applies, Assignment.filled, several, Function.comp_def]

theorem runFirst_recovered {policies : List Policy} (h : ∀ policy ∈ policies, policy.Recoverable) :
    runFirst σ (policies.map recovered) = (runFirst σ.filled policies).map Action.filled := by
  induction policies with
  | nil => rfl
  | cons policy rest ih =>
    have first := h policy List.mem_cons_self
    have stops : ∀ action ∈ policy.actions,
        decide (action.filled = .stop) = decide (action = .stop) := by
      intro action _
      cases action <;> simp [Action.filled]
    rw [List.map_cons, runFirst_cons, runFirst_cons, applies_recovered, recovered_actions first,
      ih fun policy hm => h policy (List.mem_cons_of_mem _ hm), first.active]
    simp only [recovered, Bool.true_and]
    split
    · rw [Run.map_through (fun action => decide (action = .stop)) stops]
    · rfl

end Policy

namespace Action

theorem silent_toCommand {action : Action} (h : action.isRecoverable = true) :
    action.toCommand.toAction.2 = [] := by
  have silent : (Command.actionOf action.toArguments action.kind).2 = [] := by
    cases action with
    | redirect address copy => cases copy <;> rfl
    | fileinto mailbox create copy flags => cases create <;> cases copy <;> cases flags <;> rfl
    | vacation days subject message =>
      rw [toArguments]
      cases days.filter (· ≠ 0) <;> cases nonempty? subject <;> rfl
    | _ => rfl
  have named : Vocabulary.named? action.toCommand.name = some action.kind := named_action _
  have read := toAction_toCommand action
  rw [if_pos h] at read
  unfold Command.toAction at read ⊢
  split at read
  · rename_i found events hf
    rw [named] at hf
    exact (congrArg Prod.snd (Option.some.inj hf)).symm.trans silent
  · cases read

theorem silent_toActions {actions : List Action}
    (h : ∀ action ∈ actions, action.isRecoverable = true) :
    (Command.toActions (actions.map toCommand)).2 = [] := by
  induction actions with
  | nil => rfl
  | cons action rest ih =>
    have plain : (action.toCommand.block.isSome || action.toCommand.isBranch) = false := by
      rw [toCommand_not_branch]
      rfl
    rw [List.map_cons, Command.toActions, plain]
    simp only [Bool.false_eq_true, if_false, silent_toCommand (h action List.mem_cons_self),
      ih fun action hm => h action (List.mem_cons_of_mem _ hm), List.append_nil]

end Action

namespace Policy

theorem toPolicy_toCommand {policy : Policy} (h : policy.Recoverable) {keyword : String}
    (hk : keyword ≠ "else") : (policy.toCommand keyword).toPolicy = (.ok policy.recovered, []) := by
  have tested : (policy.toCommand keyword).branchConditions =
      .ok (policy.recovered.combinator, policy.recovered.conditions) := by
    rw [← toConditions_toTest (List.all_eq_true.mpr h.conditions)]
    simp [Command.branchConditions, toCommand, hk]
  have body : Command.toActions ((policy.toCommand keyword).block.getD []) =
      (.ok policy.recovered.actions, []) :=
    Prod.ext (Action.toActions_toCommand policy.actions) (Action.silent_toActions h.actions)
  rw [Command.toPolicy, tested]
  simp only [body]
  rfl

theorem gives_chain {policies : List Policy} (h : ∀ policy ∈ policies, policy.Recoverable) :
    Gives (chain policies) (policies.map recovered) := by
  have later : ∀ {rest : List Policy}, (∀ policy ∈ rest, policy.Recoverable) →
      Gives (rest.map (toCommand "elsif")) (rest.map recovered) := by
    intro rest hr
    induction rest with
    | nil => exact .nil
    | cons policy rest ih =>
      exact .branch rfl (toPolicy_toCommand (hr policy List.mem_cons_self) (by decide))
        (ih fun policy hm => hr policy (List.mem_cons_of_mem _ hm))
  cases policies with
  | nil => exact .nil
  | cons first rest =>
    exact .branch rfl (toPolicy_toCommand (h first List.mem_cons_self) (by decide))
      (later fun policy hm => h policy (List.mem_cons_of_mem _ hm))

theorem chain_chained (policies : List Policy) :
    Command.areChained false (chain policies) = true := by
  have later : ∀ rest : List Policy, Command.areChained true (rest.map (toCommand "elsif")) = true := by
    intro rest
    induction rest with
    | nil => rfl
    | cons policy rest ih => exact ih
  cases policies with
  | nil => rfl
  | cons first rest => exact later rest

theorem chain_one (policies : List Policy) : (chain policies).countP (·.name = "if") ≤ 1 := by
  cases policies with
  | nil => exact Nat.zero_le _
  | cons first rest =>
    have later : (rest.map (toCommand "elsif")).countP (·.name = "if") = 0 := by
      rw [List.countP_eq_zero]
      intro command hm
      obtain ⟨policy, -, rfl⟩ := List.mem_map.mp hm
      simp [toCommand]
    rw [chain, List.countP_cons, later]
    split <;> omega

theorem asks_toCommand (policy : Policy) (keyword : String) :
    (policy.toCommand keyword).asksAnyOfNone = false := by
  have asks : policy.toTest.isAnyOfNone = false := by
    obtain ⟨active, combinator, conditions, actions⟩ := policy
    rcases conditions with _ | ⟨condition, _ | ⟨next, rest⟩⟩
    · exact (by decide : Condition.always.toTest.isAnyOfNone = false)
    · simp [toTest, Condition.toTest, Test.isAnyOfNone, condition_no_combinator]
    · simp [toTest, Test.isAnyOfNone]
  simp [Command.asksAnyOfNone, toCommand, asks]

theorem chain_asks (policies : List Policy) :
    ∀ command ∈ chain policies, command.asksAnyOfNone = false := by
  intro command hm
  rw [chain_eq_zipIdx] at hm
  obtain ⟨⟨policy, place⟩, -, rfl⟩ := List.mem_map.mp hm
  exact policy.asks_toCommand _

end Policy

theorem Outline.parse_events {text : String} {script : Script} (h : Script.parse text = .ok script) :
    (Outline.parse text).2 = (Script.recoverFrom false 0 script.commands).2 := by
  simp only [Outline.parse, h, Script.outline]
  split <;> rfl

namespace RuleSet

theorem parse_of_outline {text : String} {outline : Outline} {events : List Event}
    (h : Outline.parse text = (.ok outline, events)) (source : IdSource) :
    ∃ set source', parse text source = (.ok (set, source'), events) ∧
      set.policies = outline.policies := by
  refine ⟨(outline.named source).1, (outline.named source).2, ?_,
    congrArg Outline.policies (named_outline outline source)⟩
  rw [parse, h]
  rfl

theorem run_toScript_eq (set : RuleSet) (σ : Assignment) :
    set.toScript.run σ =
      Command.runAll σ .closed (Policy.chain (set.activeRules.map Rule.toPolicy)) := by
  unfold Script.run toScript requireCommands
  split
  · rfl
  · rw [List.singleton_append, Command.runAll, Command.run_of_require rfl]
    rfl

/-- The script of a filter that was read performs what the filter does, with the defaults that are
filled in. -/
theorem run_toScript {set : RuleSet} (h : set.Recoverable) (σ : Assignment) :
    (set.toScript.run σ).map (·.toAction.1) = ((set.run σ.filled).map Action.filled).map some := by
  have all : ∀ policy ∈ set.policies, policy.Recoverable := by
    intro policy hm
    obtain ⟨rule, hr, rfl⟩ := List.mem_map.mp hm
    exact h rule hr
  have chained := Policy.chain_chained set.policies
  have alone : Command.behindActing σ (Policy.chain set.policies) = [] :=
    Command.behindActing_one_chain chained (by simpa using Policy.chain_one set.policies)
  have runs := Command.runAll_of_gives σ (Policy.gives_chain all) chained
    (Policy.chain_asks set.policies)
  rw [alone] at runs
  rw [run_toScript_eq, h.activeRules, RuleSet.run, ← Policy.runFirst_recovered all]
  exact runs.trans (Run.andThen_idle _)

/-- A script that is read without a word does what its filter does, up to the end of the chain that
acts first; what is behind this chain runs on, while the filter is done. The script that is written
for the filter does what the filter does. -/
theorem run_of_parse (text : String) (source source' : IdSource) (set : RuleSet) (script : Script)
    (h : parse text source = (.ok (set, source'), [])) (hs : Script.parse text = .ok script)
    (hc : Command.areChained false script.commands = true)
    (hn : ∀ command ∈ script.commands, command.asksAnyOfNone = false) :
    (∀ σ, (script.run σ).map (·.toAction.1) = ((set.run σ).map some).andThen
      ((Command.runAll σ .closed (Command.behindActing σ script.commands)).map (·.toAction.1))) ∧
    (script.commands.countP (·.name = "if") ≤ 1 → ∀ σ,
      (script.run σ).map (·.toAction.1) = (set.run σ).map some) ∧
    ∃ again, Script.parse set.generate = .ok again ∧ ∀ σ,
      (again.run σ).map (·.toAction.1) = ((set.run σ.filled).map Action.filled).map some := by
  have read : (parse text source).1 = .ok (set, source') := congrArg Prod.fst h
  have silent : (Script.recoverFrom false 0 script.commands).2 = [] :=
    (Outline.parse_events hs).symm.trans (congrArg Prod.snd h)
  have policies : (Script.recoverFrom false 0 script.commands).1 = set.policies := by
    obtain ⟨script', hs', outlined⟩ := Outline.parse_ok_iff.mp (outline_of_parse read)
    cases hs.symm.trans hs'
    rw [Script.recoverFrom_policies]
    exact (congrArg Outline.policies (Script.outline_ok_iff.mp outlined).2).symm
  have recoverable := recoverable_of_parse read
  have runs : ∀ σ, (script.run σ).map (·.toAction.1) = ((set.run σ).map some).andThen
      ((Command.runAll σ .closed (Command.behindActing σ script.commands)).map (·.toAction.1)) := by
    intro σ
    have gives := gives_of_silent silent
    rw [policies] at gives
    exact Command.runAll_of_gives σ gives hc hn
  refine ⟨runs, ?_, set.toScript, parse_generate recoverable.sized, run_toScript recoverable⟩
  intro one σ
  rw [runs, Command.behindActing_one_chain hc (by simpa using one)]
  exact Run.andThen_idle _

def oneChain : String :=
  "if anyof (exists \"X\", false) \x7b discard; \x7d else \x7b keep; stop; \x7d"

theorem oneChain_runs :
    ∃ set source' script, parse oneChain (.startingAt 1) = (.ok (set, source'), []) ∧
      Script.parse oneChain = .ok script ∧ Command.areChained false script.commands = true ∧
      (∀ command ∈ script.commands, command.asksAnyOfNone = false) ∧
      script.commands.countP (·.name = "if") ≤ 1 ∧
      (∀ σ, (script.run σ).map (·.toAction.1) = (Policy.runFirst σ
        [⟨true, .anyof, [.present ["X"], .never], [.discard]⟩,
          ⟨true, .allof, [.always], [.keep, .stop]⟩]).map some) ∧
      ∃ again, Script.parse set.generate = .ok again ∧ ∀ σ,
        (again.run σ).map (·.toAction.1) = ((set.run σ.filled).map Action.filled).map some := by
  have outlined : Outline.parse oneChain = (.ok ⟨[⟨true, .anyof, [.present ["X"], .never],
      [.discard]⟩, ⟨true, .allof, [.always], [.keep, .stop]⟩], .empty⟩, []) :=
    Prod.ext (except_ok_of_toOption (by decide +kernel)) (by decide +kernel)
  have form : (Script.parse oneChain).toOption.map (fun script =>
      Command.areChained false script.commands &&
        script.commands.all (fun command => !command.asksAnyOfNone) &&
        decide (script.commands.countP (·.name = "if") ≤ 1)) = some true := by
    decide +kernel
  obtain ⟨script, hs, -⟩ := Outline.parse_ok_iff.mp (congrArg Prod.fst outlined)
  obtain ⟨set, source', read, policies⟩ := parse_of_outline outlined (.startingAt 1)
  simp only [hs, Except.toOption, Option.map_some, Option.some.injEq, Bool.and_eq_true,
    List.all_eq_true, Bool.not_eq_true', decide_eq_true_eq] at form
  obtain ⟨⟨linked, asks⟩, one⟩ := form
  obtain ⟨-, runs, again⟩ := run_of_parse oneChain _ source' set script read hs linked asks
  refine ⟨set, source', script, read, hs, linked, asks, one, ?_, again⟩
  intro σ
  rw [runs one σ, RuleSet.run, policies]

def twoChains : String :=
  "if true\n\x7b\n    keep;\n\x7d\nif true\n\x7b\n    discard;\n\x7d\n"

theorem twoChains_parse : Script.parse twoChains = .ok
    ⟨[⟨true, .allof, [], [.keep]⟩, ⟨true, .allof, [], [.discard]⟩].map (Policy.toCommand "if")⟩ := by
  have written : twoChains = Script.render
      ⟨[⟨true, .allof, [], [.keep]⟩, ⟨true, .allof, [], [.discard]⟩].map (Policy.toCommand "if")⟩ := by
    rfl
  rw [written]
  apply Script.parse_render
  intro command hm
  obtain ⟨policy, hp, rfl⟩ := List.mem_map.mp hm
  refine Policy.command_printable ⟨by decide, by decide⟩ ?_ _
  revert policy
  simp

/-- The second chain acts in the script, and not in the filter. -/
theorem twoChains_runs :
    ∃ set source' script, parse twoChains (.startingAt 1) = (.ok (set, source'), []) ∧
      Script.parse twoChains = .ok script ∧ Command.areChained false script.commands = true ∧
      ∀ σ, (script.run σ).map (·.toAction.1) = ⟨[some .keep, some .discard], false⟩ ∧
        set.run σ = ⟨[.keep], false⟩ := by
  have outlined : Outline.parse twoChains = (.ok ⟨[⟨true, .allof, [.always], [.keep]⟩,
      ⟨true, .allof, [.always], [.discard]⟩], .empty⟩, []) := by
    simp only [Outline.parse, twoChains_parse]
    rfl
  obtain ⟨set, source', read, policies⟩ := parse_of_outline outlined (.startingAt 1)
  refine ⟨set, source', _, read, twoChains_parse, by decide, ?_⟩
  intro σ
  have always : Condition.always.toTest.holds σ = true := by
    rw [Test.holds_of_toCondition (Condition.toCondition_toTest rfl)]
    exact σ.always
  have acts : ∀ chain action, (Policy.toCommand "if" ⟨true, .allof, [], [action]⟩).run σ chain =
      (Command.runAll σ .closed [action.toCommand], .taken) := by
    intro chain action
    rw [Command.run_of_branch rfl]
    simp [Command.applies, Policy.toCommand, Policy.toTest, always, Chain.tries, Chain.after,
      Command.runBlock]
  constructor
  · simp only [Script.run, List.map_cons, List.map_nil, Command.runAll, acts]
    rfl
  · rw [RuleSet.run, policies, Policy.runFirst_cons, if_pos (by simp [Policy.applies, σ.always])]
    rfl

def openFields : String :=
  "if exists [] \x7b fileinto \"\"; \x7d"

/-- The script of the filter asks for another header, and files into another mailbox. -/
theorem openFields_runs :
    ∃ set source', parse openFields (.startingAt 1) = (.ok (set, source'), []) ∧
      ∃ again, Script.parse set.generate = .ok again ∧
      ∀ σ, set.run σ = (if σ.condition (.present []) then ⟨[.fileinto "" false false []], false⟩
          else .idle) ∧
        (again.run σ).map (·.toAction.1) = if σ.condition (.present [""]) then
          ⟨[some (.fileinto "INBOX" false false [])], false⟩ else .idle := by
  have outlined : Outline.parse openFields =
      (.ok ⟨[⟨true, .allof, [.present []], [.fileinto "" false false []]⟩], .empty⟩, []) :=
    Prod.ext (except_ok_of_toOption (by decide +kernel)) (by decide +kernel)
  obtain ⟨set, source', read, policies⟩ := parse_of_outline outlined (.startingAt 1)
  have recoverable := recoverable_of_parse (congrArg Prod.fst read)
  have runs : ∀ σ, set.run σ = if σ.condition (.present []) then
      ⟨[.fileinto "" false false []], false⟩ else .idle := by
    intro σ
    rw [RuleSet.run, policies, Policy.runFirst_cons]
    simp only [Policy.applies, List.isEmpty_cons, List.all_cons, List.all_nil, Bool.and_true,
      Bool.true_and, Bool.false_or]
    rfl
  refine ⟨set, source', read, set.toScript, parse_generate recoverable.sized, ?_⟩
  intro σ
  refine ⟨runs σ, ?_⟩
  rw [run_toScript recoverable, runs]
  change _ = if σ.filled.condition (.present []) then _ else _
  split <;> rfl

def anyOfNone : String :=
  "if anyof\n\x7b\n    discard;\n\x7d\n"

theorem anyOfNone_parse : Script.parse anyOfNone =
    .ok ⟨[⟨"if", [], [⟨"anyof", [], []⟩], some [Action.discard.toCommand]⟩]⟩ := by
  have written : anyOfNone = Script.render
      ⟨[⟨"if", [], [⟨"anyof", [], []⟩], some [Action.discard.toCommand]⟩]⟩ := by
    rfl
  rw [written]
  apply Script.parse_render
  intro command hm
  obtain rfl := List.mem_singleton.mp hm
  refine ⟨⟨⟨by decide, by decide⟩, by simp, ?_⟩, ?_⟩
  · intro test ht
    obtain rfl := List.mem_singleton.mp ht
    exact ⟨⟨by decide, by decide⟩, by simp, by simp⟩
  · intro body hb command hc
    obtain rfl : [Action.discard.toCommand] = body := by simpa using hb
    obtain rfl := List.mem_singleton.mp hc
    exact Action.discard.command_printable _

/-- None of no tests holds, and a rule without conditions applies. -/
theorem anyOfNone_runs :
    ∃ set source' script, parse anyOfNone (.startingAt 1) = (.ok (set, source'), []) ∧
      Script.parse anyOfNone = .ok script ∧ Command.areChained false script.commands = true ∧
      ∀ σ, script.run σ = .idle ∧ set.run σ = ⟨[.discard], false⟩ := by
  have outlined : Outline.parse anyOfNone =
      (.ok ⟨[⟨true, .anyof, [], [.discard]⟩], .empty⟩, []) := by
    simp only [Outline.parse, anyOfNone_parse]
    rfl
  obtain ⟨set, source', read, policies⟩ := parse_of_outline outlined (.startingAt 1)
  refine ⟨set, source', _, read, anyOfNone_parse, by decide, ?_⟩
  intro σ
  have fails : (⟨"anyof", [], []⟩ : Test).holds σ = false := by
    rw [Test.holds]
    rfl
  constructor
  · rw [Script.run, Command.runAll, Command.run_of_branch rfl]
    simp [Command.applies, fails, Command.runAll]
  · rw [RuleSet.run, policies]
    rfl

/-- Scripts that are read without a word and do not do what their filters do, or what is written for
these does. -/
theorem runs_differ :
    (∃ set source' script, parse twoChains (.startingAt 1) = (.ok (set, source'), []) ∧
      Script.parse twoChains = .ok script ∧ Command.areChained false script.commands = true ∧
      ∀ σ, (script.run σ).map (·.toAction.1) = ⟨[some .keep, some .discard], false⟩ ∧
        set.run σ = ⟨[.keep], false⟩) ∧
    (∃ set source', parse openFields (.startingAt 1) = (.ok (set, source'), []) ∧
      ∃ again, Script.parse set.generate = .ok again ∧
      ∀ σ, set.run σ = (if σ.condition (.present []) then ⟨[.fileinto "" false false []], false⟩
          else .idle) ∧
        (again.run σ).map (·.toAction.1) = if σ.condition (.present [""]) then
          ⟨[some (.fileinto "INBOX" false false [])], false⟩ else .idle) ∧
    ∃ set source' script, parse anyOfNone (.startingAt 1) = (.ok (set, source'), []) ∧
      Script.parse anyOfNone = .ok script ∧ Command.areChained false script.commands = true ∧
      ∀ σ, script.run σ = .idle ∧ set.run σ = ⟨[.discard], false⟩ :=
  ⟨twoChains_runs, openFields_runs, anyOfNone_runs⟩

end RuleSet

end SieveRules
