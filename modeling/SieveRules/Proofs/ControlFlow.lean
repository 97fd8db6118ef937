import SieveRules.Proofs.Joining
/-!
What scripts and filters do to a message. A script is run by its control flow, in which every `if`
opens a chain of its own; of a filter only the first active rule that applies acts. A branch that is
read without a word applies where its rule does, and performs the same.
-/

namespace SieveRules

variable {α β : Type}

/-- What a run comes to: what it performs, in order, and whether it was told to stop. -/
structure Run (α : Type) where
  performed : List α
  stopped : Bool
  deriving DecidableEq, Repr

namespace Run

def idle : Run α := ⟨[], false⟩

def andThen (first next : Run α) : Run α :=
  if first.stopped then first else ⟨first.performed ++ next.performed, next.stopped⟩

def map (f : α → β) (run : Run α) : Run β :=
  ⟨run.performed.map f, run.stopped⟩

def through (stops : α → Bool) : List α → Run α
  | [] => idle
  | a :: rest => andThen ⟨[a], stops a⟩ (through stops rest)

@[simp] theorem idle_andThen (run : Run α) : idle.andThen run = run := rfl

@[simp] theorem andThen_idle (run : Run α) : run.andThen idle = run := by
  obtain ⟨performed, stopped⟩ := run
  cases stopped with
  | false => simp [andThen, idle]
  | true => rfl

@[simp] theorem map_andThen (f : α → β) (first next : Run α) :
    (first.andThen next).map f = (first.map f).andThen (next.map f) := by
  obtain ⟨performed, stopped⟩ := first
  cases stopped with
  | false => simp [andThen, map]
  | true => rfl

theorem map_through {f : α → β} {stops : α → Bool} (stops' : β → Bool) {items : List α}
    (h : ∀ a ∈ items, stops' (f a) = stops a) :
    (through stops items).map f = through stops' (items.map f) := by
  induction items with
  | nil => rfl
  | cons a rest ih =>
    rw [through, map_andThen, ih fun b hb => h b (List.mem_cons_of_mem _ hb), List.map_cons, through,
      h a List.mem_cons_self]
    rfl

end Run

/-- Truth values for the conditions of a filter, and for tests that stand for none of them. -/
structure Assignment where
  condition : Condition → Bool
  other : Test → Bool
  always : condition .always = true

namespace Policy

/-- The rule applies: some of its conditions hold or all do, and a rule without any always does. -/
def applies (σ : Assignment) (policy : Policy) : Bool :=
  policy.conditions.isEmpty ||
    match policy.combinator with
    | .anyof => policy.conditions.any σ.condition
    | .allof => policy.conditions.all σ.condition

/-- The first active rule that applies acts, and no other does. -/
def runFirst (σ : Assignment) (policies : List Policy) : Run Action :=
  match policies.find? fun policy => policy.active && policy.applies σ with
  | none => .idle
  | some policy => .through (· = .stop) policy.actions

theorem runFirst_cons (σ : Assignment) (policy : Policy) (rest : List Policy) :
    runFirst σ (policy :: rest) =
      if policy.active && policy.applies σ then .through (· = .stop) policy.actions
      else runFirst σ rest := by
  unfold runFirst
  rw [List.find?_cons]
  cases policy.active && policy.applies σ <;> rfl

end Policy

def RuleSet.run (σ : Assignment) (set : RuleSet) : Run Action :=
  Policy.runFirst σ set.policies

mutual

/-- The test holds: it combines others, or has the truth value of what it stands for. -/
def Test.holds (σ : Assignment) : Test → Bool
  | ⟨name, arguments, tests⟩ =>
    match Vocabulary.named? name with
    | some Combinator.anyof => Test.someHold σ tests
    | some Combinator.allof => Test.allHold σ tests
    | none =>
      match Test.toCondition ⟨name, arguments, tests⟩ with
      | .ok condition => σ.condition condition
      | .error _ => σ.other ⟨name, arguments, tests⟩

def Test.someHold (σ : Assignment) : List Test → Bool
  | [] => false
  | test :: rest => test.holds σ || Test.someHold σ rest

def Test.allHold (σ : Assignment) : List Test → Bool
  | [] => true
  | test :: rest => test.holds σ && Test.allHold σ rest

end

/-- Where a run stands in a chain of branches. -/
inductive Chain where
  | closed
  | untaken
  | taken
  deriving DecidableEq, Repr

namespace Chain

/-- A branch of this name is tried. An `if` opens its own chain; the other branches are tried where
none before them has been taken. -/
def tries (chain : Chain) (name : String) : Bool :=
  name = "if" || chain = .untaken

/-- The chain behind a branch, which was taken or not. Nothing goes on a chain behind `else`. -/
def after (chain : Chain) (name : String) (took : Bool) : Chain :=
  if name = "else" then .closed
  else if took then .taken
  else if chain.tries name then .untaken
  else chain

end Chain

namespace Command

def applies (σ : Assignment) (command : Command) : Bool :=
  command.name = "else" ||
    match command.tests with
    | [test] => test.holds σ
    | _ => false

def isStop (command : Command) : Bool :=
  Vocabulary.named? command.name = some ActionKind.stop

mutual

/-- What a command performs, and where the chain stands behind it. -/
def run (σ : Assignment) (chain : Chain) : Command → Run Command × Chain
  | ⟨name, arguments, tests, block⟩ =>
    let command : Command := ⟨name, arguments, tests, block⟩
    if command.isBranch then
      let took := chain.tries name && command.applies σ
      (if took then runBlock σ block else .idle, chain.after name took)
    else if name = "require" then (.idle, .closed)
    else (⟨[command], command.isStop⟩, .closed)

def runBlock (σ : Assignment) : Option (List Command) → Run Command
  | none => .idle
  | some body => runAll σ .closed body

def runAll (σ : Assignment) (chain : Chain) : List Command → Run Command
  | [] => .idle
  | command :: rest => (command.run σ chain).1.andThen (runAll σ (command.run σ chain).2 rest)

end

/-- What is behind the chain of the first branch that applies. -/
def behindActing (σ : Assignment) : List Command → List Command
  | [] => []
  | command :: rest =>
    if command.isBranch && command.applies σ then rest.dropWhile (·.name ≠ "if")
    else behindActing σ rest

/-- Every `elsif` and every `else` goes on a chain. The flag says whether one is open. -/
def areChained (isOpen : Bool) : List Command → Bool
  | [] => true
  | command :: rest =>
    if command.name = "if" then areChained true rest
    else if command.name = "elsif" then isOpen && areChained true rest
    else if command.name = "else" then isOpen && areChained false rest
    else areChained false rest

end Command

def Script.run (σ : Assignment) (script : Script) : Run Command :=
  Command.runAll σ .closed script.commands

variable {σ : Assignment}

theorem exactly_condition_no_combinator (kind : ConditionKind) :
    (Vocabulary.exactly? kind.word : Option Combinator) = none := by
  cases kind <;> decide

theorem Test.no_combinator {test : Test} {condition : Condition}
    (h : test.toCondition = .ok condition) :
    (Vocabulary.named? test.name : Option Combinator) = none := by
  unfold toCondition at h
  split at h
  · cases h
  · rename_i kind hk
    have word : kind.word = Text.lowerCase test.name := Vocabulary.word_of_exactly? hk
    rw [Vocabulary.named?, ← word]
    exact exactly_condition_no_combinator kind

theorem Test.holds_of_toCondition {test : Test} {condition : Condition}
    (h : test.toCondition = .ok condition) : test.holds σ = σ.condition condition := by
  have plain := no_combinator h
  obtain ⟨name, arguments, tests⟩ := test
  rw [Test.holds]
  simp only [plain, h]

theorem Test.some_all_of_mapM {tests : List Test} {conditions : List Condition}
    (h : tests.mapM Test.toCondition = .ok conditions) :
    Test.someHold σ tests = conditions.any σ.condition ∧
      Test.allHold σ tests = conditions.all σ.condition := by
  induction tests generalizing conditions with
  | nil =>
    cases h
    exact ⟨rfl, rfl⟩
  | cons test rest ih =>
    rw [List.mapM_cons] at h
    obtain ⟨condition, hc, h⟩ := except_bind_ok h
    obtain ⟨later, hl, h⟩ := except_bind_ok h
    cases h
    obtain ⟨someLater, allLater⟩ := ih hl
    constructor
    · rw [Test.someHold, holds_of_toCondition hc, someLater, List.any_cons]
    · rw [Test.allHold, holds_of_toCondition hc, allLater, List.all_cons]

/-- The test asks for one of no tests at all. A rule has no conditions for it. -/
def Test.isAnyOfNone (test : Test) : Bool :=
  Vocabulary.named? test.name = some Combinator.anyof && test.tests.isEmpty

theorem Test.holds_of_toConditions {test : Test} {combinator : Combinator}
    {conditions : List Condition} (h : test.toConditions = .ok (combinator, conditions))
    (hn : test.isAnyOfNone = false) (active : Bool) (actions : List Action) :
    test.holds σ = Policy.applies σ ⟨active, combinator, conditions, actions⟩ := by
  obtain ⟨name, arguments, tests⟩ := test
  unfold toConditions at h
  split at h
  · rename_i hf
    obtain ⟨read, hm, h⟩ := except_map_ok h
    cases h
    obtain ⟨someHolds, allHold⟩ := @some_all_of_mapM σ _ _ hm
    rw [Test.holds]
    cases combinator with
    | anyof =>
      have several : conditions.isEmpty = false := by
        cases tests with
        | nil => simp [isAnyOfNone, hf] at hn
        | cons test rest =>
          rw [List.mapM_cons] at hm
          obtain ⟨condition, -, hm⟩ := except_bind_ok hm
          obtain ⟨later, -, hm⟩ := except_bind_ok hm
          cases hm
          rfl
      simp only [hf, someHolds, Policy.applies, several, Bool.false_or]
    | allof =>
      cases conditions with
      | nil => simp [hf, allHold, Policy.applies]
      | cons condition rest =>
        simp only [hf, allHold, Policy.applies, List.isEmpty_cons, Bool.false_or]
  · obtain ⟨condition, hc, h⟩ := except_map_ok h
    cases h
    rw [holds_of_toCondition hc]
    simp [Policy.applies]

namespace Command

theorem isStop_of_toAction {command : Command} {action : Action}
    (h : command.toAction.1 = some action) : command.isStop = decide (action = .stop) := by
  unfold toAction at h
  split at h
  · rename_i found events hf
    cases h
    obtain ⟨kind, hk, ha⟩ := Option.map_eq_some_iff.mp hf
    rw [isStop, hk]
    cases kind <;> cases ha <;> rfl
  · cases h

theorem require_no_action {command : Command} (h : command.name = "require") :
    command.toAction.1 = none := by
  have unknown : (Vocabulary.named? "require" : Option ActionKind) = none := by decide
  rw [toAction, h, unknown]
  rfl

theorem toAction_of_silent {command : Command} (h : command.toAction.2 = []) :
    ∃ action, command.toAction.1 = some action := by
  cases hf : command.toAction.1 with
  | some action => exact ⟨action, rfl⟩
  | none =>
    unfold toAction at h hf
    split at h
    · rename_i found
      simp only [found, reduceCtorEq] at hf
    · cases h

theorem run_of_toAction {command : Command} {action : Action} (hb : command.isBranch = false)
    (ha : command.toAction.1 = some action) (chain : Chain) :
    command.run σ chain = (⟨[command], decide (action = .stop)⟩, .closed) := by
  have named : command.name ≠ "require" := by
    intro hn
    rw [require_no_action hn] at ha
    cases ha
  have stop := isStop_of_toAction ha
  obtain ⟨name, arguments, tests, block⟩ := command
  rw [Command.run]
  simp only [hb, Bool.false_eq_true, if_false, if_neg named, stop]

theorem runAll_of_toActions (σ : Assignment) {body : List Command} {actions : List Action}
    (h : toActions body = (.ok actions, [])) :
    (runAll σ .closed body).map (·.toAction.1) = (Run.through (· = .stop) actions).map some := by
  induction body generalizing actions with
  | nil =>
    cases h
    rfl
  | cons command rest ih =>
    rw [toActions] at h
    split at h
    · cases h
    · rename_i flat
      have plain : command.isBranch = false := by
        cases hb : command.isBranch with
        | false => rfl
        | true => simp [hb] at flat
      have read : (toActions rest).1.map (command.toAction.1.toList ++ ·) = .ok actions :=
        congrArg Prod.fst h
      have told : command.toAction.2 ++ (toActions rest).2 = [] := congrArg Prod.snd h
      obtain ⟨silent, silentLater⟩ := List.append_eq_nil_iff.mp told
      obtain ⟨action, ha⟩ := toAction_of_silent silent
      obtain ⟨later, hl, joined⟩ := except_map_ok read
      rw [ha] at joined
      cases joined
      rw [runAll, run_of_toAction plain ha, Run.map_andThen, ih (Prod.ext hl silentLater),
        Option.toList_some, List.singleton_append, Run.through, Run.map_andThen]
      change (Run.mk [command.toAction.1] _).andThen _ = _
      rw [ha]
      rfl

def asksAnyOfNone (command : Command) : Bool :=
  command.name ≠ "else" && command.tests.any Test.isAnyOfNone

/-- A branch applies where its rule does, and then performs the actions of the rule. -/
theorem branch_of_toPolicy (σ : Assignment) {command : Command} {policy : Policy}
    (h : command.toPolicy = (.ok policy, [])) (hn : command.asksAnyOfNone = false) :
    policy.active = true ∧ policy.applies σ = command.applies σ ∧
      (runBlock σ command.block).map (·.toAction.1) =
        (Run.through (· = .stop) policy.actions).map some := by
  unfold toPolicy at h
  split at h
  · cases h
  · rename_i combinator conditions hc
    have read : (toActions (command.block.getD [])).1.map
        (Policy.mk true combinator conditions ·) = .ok policy := congrArg Prod.fst h
    have silent : (toActions (command.block.getD [])).2 = [] := congrArg Prod.snd h
    obtain ⟨actions, ha, rfl⟩ := except_map_ok read
    refine ⟨rfl, ?_, ?_⟩
    · unfold branchConditions at hc
      split at hc
      · rename_i named
        cases hc
        simp [applies, named, Policy.applies, σ.always]
      · rename_i named
        split at hc
        · rename_i test only
          have asks : test.isAnyOfNone = false := by simpa [asksAnyOfNone, named, only] using hn
          rw [← Test.holds_of_toConditions hc asks true actions]
          simp [applies, named, only]
        · cases hc
    · rw [← runAll_of_toActions σ (Prod.ext ha silent)]
      cases command.block <;> rfl

end Command

end SieveRules
