import SieveRules.Proofs.Commands
import SieveRules.Proofs.UniqueIds
/-!
The stored filter from call to call of the program. Only a script that is accepted with `--save`
changes it; its rules are then those of the script, and extensions are only ever switched on.
-/

namespace SieveRules

namespace CapabilitySet

theorem isEnabledName_iff (set : CapabilitySet) (name : String) :
    set.isEnabledName name = true ↔ (name, true) ∈ set.flags.entries := by
  have found : set.isEnabledName name = true ↔ set.flags.entries.lookup name = some true := by
    unfold isEnabledName Dictionary.get?
    cases set.flags.entries.lookup name <;> simp
  rw [found]
  exact ⟨mem_of_lookup, lookup_of_mem set.flags.distinct⟩

theorem foldl_setName_on (entries : List (String × Bool)) (set : CapabilitySet) (name : String) :
    (entries.foldl (fun set e => if e.2 then set.setName e.1 true else set) set).isEnabledName name =
        true ↔
      set.isEnabledName name = true ∨ (name, true) ∈ entries := by
  induction entries generalizing set with
  | nil => simp
  | cons e entries ih =>
    obtain ⟨key, on⟩ := e
    rw [List.foldl_cons, ih]
    cases on with
    | false => simp
    | true =>
      simp only [if_pos, isEnabledName_setName, List.mem_cons, Prod.mk.injEq, and_true]
      split <;> simp_all

theorem isEnabledName_mergeEnabled (set other : CapabilitySet) (name : String) :
    (set.mergeEnabled other).isEnabledName name = true ↔
      set.isEnabledName name = true ∨ other.isEnabledName name = true := by
  rw [mergeEnabled, foldl_setName_on, isEnabledName_iff other]

theorem isEnabledName_standard (name : String) :
    standard.isEnabledName name = true ↔ name = "fileinto" := by
  have entries : ∀ e ∈ standard.flags.entries, e.2 = true ↔ e.1 = "fileinto" := by decide +kernel
  have listed : ("fileinto", true) ∈ standard.flags.entries := by decide +kernel
  rw [isEnabledName_iff]
  constructor
  · intro h
    exact (entries _ h).mp rfl
  · rintro rfl
    exact listed

end CapabilitySet

namespace IdSource

theorem nameAll_source (source : IdSource) (policies : List Policy) :
    (source.nameAll policies).2 = source.moved policies.length := by
  induction policies generalizing source with
  | nil => rfl
  | cons policy rest ih =>
    rw [nameAll]
    simp only [ih]
    simp only [moved, mint, List.length_cons, Nat.add_assoc, Nat.add_comm 1]

theorem nameAll_nodup {source : IdSource} {policies : List Policy} {ids : List RuleId}
    (fresh : source.Fresh (source.nameAll policies).2.next ids) :
    ((source.nameAll policies).1.map (·.id)).Nodup ∧
      ∀ id ∈ (source.nameAll policies).1.map (·.id), id ∉ ids := by
  induction policies generalizing source ids with
  | nil => simp [nameAll]
  | cons policy rest ih =>
    have ahead : source.next < (source.nameAll (policy :: rest)).2.next := by
      rw [nameAll_source]
      simp only [moved, List.length_cons]
      omega
    have new : source.mint.1 ∉ ids := fresh.first ahead
    obtain ⟨distinct, apart⟩ := @ih source.mint.2 _ fresh.later
    have listed : (source.nameAll (policy :: rest)).1.map (·.id) =
        source.mint.1 :: (source.mint.2.nameAll rest).1.map (·.id) := rfl
    rw [listed]
    refine ⟨List.nodup_cons.mpr ⟨fun hm => apart _ hm List.mem_cons_self, distinct⟩, ?_⟩
    intro id hid
    rcases List.mem_cons.mp hid with rfl | hid
    · exact new
    · exact fun hm => apart id hid (List.mem_cons_of_mem _ hm)

end IdSource

namespace RuleSet

theorem parse_nodup {text : String} {source source' : IdSource} {set : RuleSet}
    (h : (parse text source).1 = .ok (set, source')) (fresh : source.Fresh source'.next []) :
    set.ids.Nodup := by
  change (Outline.parse text).1.map (·.named source) = _ at h
  obtain ⟨outline, -, named⟩ := except_map_ok h
  cases named
  exact (IdSource.nameAll_nodup fresh).1

end RuleSet

/-- A call of the program: where one stands, the standard input, and the names that it has for
rules. -/
structure Call where
  here : Place
  input : ByteArray
  source : IdSource
  arguments : List String

namespace Environment

/-- The place of the stored filter, for one who stands somewhere. -/
def storePlace? (environment : Environment) (here : Place) : Option Place :=
  environment.storePath.toOption.bind fun path => FileTree.place? here (.ofString path)

def stored? (environment : Environment) (here : Place) (tree : FileTree) : Option ByteArray :=
  (environment.storePlace? here).bind tree.fileAt

/-- The file of the stored filter reads as a filter, and there is nothing to tell about it. -/
def Holds (environment : Environment) (here : Place) (tree : FileTree) (set : RuleSet) : Prop :=
  ∃ text : String, environment.stored? here tree = some text.toUTF8 ∧
    ∀ source, RuleSet.decode text source = ((set, source), [])

end Environment

namespace Call

variable (call : Call) (environment : Environment) (tree : FileTree)

def run : (Outcome × IdSource) × FileTree :=
  CommandLine.run (FileTree.files call.here call.input) environment call.source call.arguments tree

def outcome : Outcome :=
  (call.run environment tree).1.1

def left : FileTree :=
  (call.run environment tree).2

def recovered? (path : String) : Option RuleSet :=
  match tree.text? call.here call.input path with
  | .ok text => (RuleSet.parse text call.source).1.toOption.map Prod.fst
  | .error _ => none

/-- The filter that a call has accepted to be stored. -/
def accepted? : Option RuleSet :=
  match Invocation.ofArguments call.arguments with
  | some (.parse path true) =>
    if (call.outcome environment tree).code = 0 then call.recovered? tree path else none
  | _ => none

/-- The path of the stored filter means for the call what it means from `here`, names that it gives
out do not collide, and it does not write its output over the stored filter. -/
structure Fair (environment : Environment) (here : Place) (tree : FileTree) (call : Call) :
    Prop where
  store : ∀ path, environment.storePath = .ok path →
    FileTree.start call.here (.ofString path) = FileTree.start here (.ofString path)
  fresh : call.source.Fresh (call.run environment tree).1.2.next []
  apart : ∀ model output,
    Invocation.ofArguments call.arguments = some (.generate model (some output)) →
      (call.outcome environment tree).code = 0 →
        FileTree.place? call.here (.ofString output) ≠ environment.storePlace? here

end Call

/-- The trees that calls lead to from one without a stored filter, with the filters that were
accepted to be stored on the way. Between calls everything else may change, as long as directories
stay. -/
inductive Reached (environment : Environment) (here : Place) : FileTree → List RuleSet → Prop where
  | start {tree : FileTree} (none : environment.stored? here tree = none) :
    Reached environment here tree []
  | elsewhere {tree tree' : FileTree} {accepted : List RuleSet}
    (before : Reached environment here tree accepted)
    (spared : ∀ place, environment.storePlace? here = some place →
      FileTree.Spares place tree tree') : Reached environment here tree' accepted
  | called {tree : FileTree} {accepted : List RuleSet}
    (before : Reached environment here tree accepted) (call : Call)
    (fair : call.Fair environment here tree) :
    Reached environment here (call.left environment tree)
      (accepted ++ (call.accepted? environment tree).toList)

namespace Call

variable {call : Call} {environment : Environment} {here : Place} {tree : FileTree} {path : String}

/-- How a command ended, told as the outcome of the call. -/
def ended (result : Except Failure Unit) (progress : Progress) : Outcome :=
  match result with
  | .ok () => ⟨0, progress.output, "", progress.events⟩
  | .error failure => ⟨1, progress.output, failure.report, progress.events⟩

theorem run_none (h : Invocation.ofArguments call.arguments = none) :
    call.run environment tree = ((⟨2, "", Invocation.usage, []⟩, call.source), tree) := by
  unfold run CommandLine.run
  rw [h]
  rfl

theorem run_some {invocation : Invocation} {result : Except Failure Unit} {progress : Progress}
    {tree' : FileTree} (h : Invocation.ofArguments call.arguments = some invocation)
    (hr : (CommandLine.perform (FileTree.files call.here call.input) environment invocation).on
      ⟨"", [], call.source⟩ tree = ((result, progress), tree')) :
    call.run environment tree = ((ended result progress, progress.source), tree') := by
  unfold run CommandLine.run
  rw [h]
  unfold CommandLine.Run.on at hr
  simp only
  rw [stateM_bind, hr]
  cases result <;> rfl

theorem left_spares (fair : call.Fair environment here tree)
    (unsaved : ∀ path, Invocation.ofArguments call.arguments = some (.parse path true) →
      (call.outcome environment tree).code ≠ 0)
    {place : Place} (hp : environment.storePlace? here = some place) :
    FileTree.Spares place tree (call.left environment tree) := by
  cases h : Invocation.ofArguments call.arguments with
  | none =>
    rw [left, run_none h]
    exact .refl place tree
  | some invocation =>
    obtain ⟨⟨⟨result, progress⟩, tree'⟩, hr⟩ : ∃ x, (CommandLine.perform
      (FileTree.files call.here call.input) environment invocation).on
        ⟨"", [], call.source⟩ tree = x := ⟨_, rfl⟩
    have ran := run_some h hr
    rw [left, ran]
    cases result with
    | error e => exact CommandLine.perform_careful invocation _ _ _ _ _ hr place
    | ok done =>
      have succeeded : (call.outcome environment tree).code = 0 := by
        rw [outcome, ran]
        rfl
      refine CommandLine.perform_spares hr place ?_ ?_
      · rintro model output rfl
        rw [← hp]
        exact fair.apart model output h succeeded
      · rintro path rfl
        exact unsaved path h succeeded

theorem run_rejects {save : Bool}
    (h : Invocation.ofArguments call.arguments = some (.parse path save))
    (rejected : call.recovered? tree path = none) :
    (call.outcome environment tree).code = 1 ∧ call.left environment tree = tree := by
  have unread : ∀ text recovered, tree.text? call.here call.input path = .ok text →
      (RuleSet.parse text call.source).1 ≠ .ok recovered := by
    intro text recovered read parsed
    rw [recovered?, read] at rejected
    simp [parsed, Except.toOption] at rejected
  obtain ⟨e, progress, hr⟩ : ∃ e progress, (CommandLine.perform
    (FileTree.files call.here call.input) environment (.parse path save)).on
      ⟨"", [], call.source⟩ tree = ((.error e, progress), tree) := CommandLine.perform_rejects unread
  have ran := run_some h hr
  rw [outcome, left, ran]
  exact ⟨rfl, rfl⟩

theorem run_saves (h : Invocation.ofArguments call.arguments = some (.parse path true))
    (succeeded : (call.outcome environment tree).code = 0) :
    ∃ text printed source, (RuleSet.parse text call.source).1 = .ok (printed, source) ∧
      call.recovered? tree path = some printed ∧
      (call.outcome environment tree).output = printed.encode ++ "\n" ∧
      ∃ file old source' events, environment.storePath = .ok file ∧
        tree.ruleSet? call.here file source = .ok ((old, source'), events) ∧
        (call.run environment tree).1.2 = (old.adopt printed source').2 ∧
        (call.left environment tree).read call.here file =
          .ok (old.adopt printed source').1.encode.toUTF8 := by
  obtain ⟨⟨⟨result, progress⟩, tree'⟩, hr⟩ : ∃ x, (CommandLine.perform
    (FileTree.files call.here call.input) environment (.parse path true)).on
      ⟨"", [], call.source⟩ tree = x := ⟨_, rfl⟩
  have ran := run_some h hr
  cases result with
  | error e =>
    rw [outcome, ran] at succeeded
    cases succeeded
  | ok done =>
    obtain ⟨text, printed, source, read, parsed, output, file, old, source', events, located, loaded,
      moved, stored⟩ := CommandLine.perform_saves hr
    rw [outcome, left, ran]
    refine ⟨text, printed, source, parsed, ?_, output, file, old, source', events, located, loaded,
      moved, stored⟩
    rw [recovered?, read]
    simp [parsed, Except.toOption]

end Call

namespace RuleSet

theorem adopt_source (set parsed : RuleSet) (source : IdSource) :
    source.next ≤ (set.adopt parsed source).2.next := by
  have moved := renameRepeated_source [] source parsed.rules
  change source.next ≤ (renameRepeated [] source parsed.rules).2.2.next
  rw [moved]
  exact Nat.le_add_right _ _

theorem adopt_distinct {parsed : RuleSet} (h : parsed.ids.Nodup) (set : RuleSet)
    (source : IdSource) :
    set.adopt parsed source =
      (⟨parsed.rules, set.extensions.mergeEnabled parsed.extensions⟩, source) := by
  have distinct : RuleSet.ids { set with rules := parsed.rules } |>.Nodup := h
  rw [adopt, ensureUniqueIds_distinct distinct]

end RuleSet

/-- The names that are on in a filter are `fileinto` and those that some script has switched on. -/
def RuleSet.Remembers (set : RuleSet) (accepted : List RuleSet) : Prop :=
  ∀ name, set.extensions.isEnabledName name = true ↔
    name = "fileinto" ∨ ∃ other ∈ accepted, other.extensions.isEnabledName name = true

theorem RuleSet.remembers_initial : RuleSet.initial.Remembers [] := by
  intro name
  simp [RuleSet.initial, CapabilitySet.isEnabledName_standard]

theorem RuleSet.Remembers.adopt {old parsed : RuleSet} {accepted : List RuleSet}
    (h : old.Remembers accepted) :
    RuleSet.Remembers ⟨parsed.rules, old.extensions.mergeEnabled parsed.extensions⟩
      (accepted ++ [parsed]) := by
  intro name
  rw [CapabilitySet.isEnabledName_mergeEnabled, h name]
  simp [or_assoc, or_and_right, exists_or]

/-- What holds of the files at any time: there is no stored filter and none was accepted, or one is
stored that was encoded with distinct names and remembers all that were accepted. -/
inductive StoreFollows (environment : Environment) (here : Place) (tree : FileTree) :
    List RuleSet → Prop where
  | unsaved (h : environment.stored? here tree = none) : StoreFollows environment here tree []
  | saved {file : String} {set : RuleSet} {accepted : List RuleSet}
    (located : environment.storePath = .ok file)
    (read : tree.read here file = .ok set.encode.toUTF8) (distinct : set.ids.Nodup)
    (remembers : set.Remembers accepted) : StoreFollows environment here tree accepted

section

variable {environment : Environment} {here : Place} {tree tree' : FileTree} {file : String}
  {set : RuleSet} {accepted : List RuleSet}

theorem stored_of_read {content : ByteArray} (located : environment.storePath = .ok file)
    (read : tree.read here file = .ok content) : environment.stored? here tree = some content := by
  obtain ⟨place, means, held⟩ := FileTree.fileAt_of_read read
  rw [Environment.stored?, Environment.storePlace?, located]
  simpa [Except.toOption, means] using held

theorem holds_of_read (located : environment.storePath = .ok file)
    (read : tree.read here file = .ok set.encode.toUTF8) (distinct : set.ids.Nodup) :
    environment.Holds here tree set :=
  ⟨set.encode, stored_of_read located read, RuleSet.decode_encode distinct⟩

theorem Environment.Holds.unique {other : RuleSet} (h : environment.Holds here tree set)
    (h' : environment.Holds here tree other) : set = other := by
  obtain ⟨text, held, decoded⟩ := h
  obtain ⟨text', held', decoded'⟩ := h'
  have bytes : text.toUTF8 = text'.toUTF8 := Option.some.inj (held.symm.trans held')
  have same : text = text' := by
    have read := congrArg textOf bytes
    rw [textOf_toUTF8, textOf_toUTF8] at read
    exact Except.ok.inj read
  have read := (decoded (.startingAt 0)).symm.trans (same ▸ decoded' (.startingAt 0))
  exact congrArg (·.1.1) read

theorem stored_spares (spared : ∀ place, environment.storePlace? here = some place →
    FileTree.Spares place tree tree') :
    environment.stored? here tree' = environment.stored? here tree := by
  unfold Environment.stored?
  cases h : environment.storePlace? here with
  | none => rfl
  | some place => exact (spared place h).file

theorem StoreFollows.spared (h : StoreFollows environment here tree accepted)
    (spared : ∀ place, environment.storePlace? here = some place →
      FileTree.Spares place tree tree') : StoreFollows environment here tree' accepted := by
  cases h with
  | unsaved none => exact .unsaved ((stored_spares spared).trans none)
  | saved located read distinct remembers =>
    refine .saved located (FileTree.read_spares read ?_) distinct remembers
    intro place means
    refine spared place ?_
    rw [Environment.storePlace?, located]
    exact means

variable {call : Call} {path : String}

theorem StoreFollows.loads (h : StoreFollows environment here tree accepted)
    (fair : call.Fair environment here tree) (located : environment.storePath = .ok file)
    {old : RuleSet} {source source' : IdSource} {events : List Event}
    (loaded : tree.ruleSet? call.here file source = .ok ((old, source'), events)) :
    old.Remembers accepted ∧ source' = source := by
  rw [FileTree.ruleSet?, FileTree.read_start (fair.store file located)] at loaded
  cases h with
  | unsaved none =>
    cases hr : tree.read here file with
    | ok content =>
      have held := stored_of_read located hr
      rw [none] at held
      cases held
    | error e =>
      rw [hr] at loaded
      cases e with
      | notFound =>
        cases loaded
        exact ⟨RuleSet.remembers_initial, rfl⟩
      | _ => cases loaded
  | @saved _ set _ located' read distinct remembers =>
    rw [located] at located'
    cases located'
    have text : (tree.read here file).bind textOf = .ok set.encode := by
      rw [read]
      exact textOf_toUTF8 set.encode
    simp only [text, RuleSet.decode_encode distinct] at loaded
    cases loaded
    exact ⟨remembers, rfl⟩

/-- Behind a call that parses and stores there is a stored filter, with the rules that were
printed. -/
theorem StoreFollows.saves (h : StoreFollows environment here tree accepted)
    (fair : call.Fair environment here tree)
    (parse : Invocation.ofArguments call.arguments = some (.parse path true))
    (succeeded : (call.outcome environment tree).code = 0) :
    ∃ printed set, call.recovered? tree path = some printed ∧
      (call.outcome environment tree).output = printed.encode ++ "\n" ∧
      set.rules = printed.rules ∧ set.Remembers (accepted ++ [printed]) ∧
      environment.Holds here (call.left environment tree) set ∧
      StoreFollows environment here (call.left environment tree) (accepted ++ [printed]) := by
  obtain ⟨text, printed, source, parsed, recovered, output, file, old, source', events, located,
    loaded, moved, stored⟩ := Call.run_saves parse succeeded
  obtain ⟨remembers, rfl⟩ := h.loads fair located loaded
  have distinct : printed.ids.Nodup := by
    refine RuleSet.parse_nodup parsed (fair.fresh.until ?_)
    rw [moved]
    exact RuleSet.adopt_source old printed source'
  rw [FileTree.read_start (fair.store file located), RuleSet.adopt_distinct distinct] at stored
  refine ⟨printed, ⟨printed.rules, old.extensions.mergeEnabled printed.extensions⟩, recovered,
    output, rfl, remembers.adopt, ?_, ?_⟩
  · exact holds_of_read located stored distinct
  · exact .saved located stored distinct remembers.adopt

theorem StoreFollows.called (h : StoreFollows environment here tree accepted)
    (fair : call.Fair environment here tree) :
    StoreFollows environment here (call.left environment tree)
      (accepted ++ (call.accepted? environment tree).toList) := by
  by_cases saves : ∃ path, Invocation.ofArguments call.arguments = some (.parse path true) ∧
    (call.outcome environment tree).code = 0
  · obtain ⟨path, parse, succeeded⟩ := saves
    obtain ⟨printed, set, recovered, -, -, -, -, follows⟩ := h.saves fair parse succeeded
    have accepts : call.accepted? environment tree = some printed := by
      rw [Call.accepted?, parse]
      simp only [succeeded, if_pos, recovered]
    rw [accepts]
    exact follows
  · have none : call.accepted? environment tree = none := by
      unfold Call.accepted?
      split
      · rename_i path parse
        rw [if_neg fun succeeded => saves ⟨path, parse, succeeded⟩]
      · rfl
    rw [none, Option.toList_none, List.append_nil]
    exact h.spared fun place => Call.left_spares fair fun path parse succeeded =>
      saves ⟨path, parse, succeeded⟩

theorem Reached.follows (h : Reached environment here tree accepted) :
    StoreFollows environment here tree accepted := by
  induction h with
  | start none => exact .unsaved none
  | elsewhere _ spared ih => exact ih.spared spared
  | called _ call fair ih => exact ih.called fair

/-- The stored filter, over any calls from a start without one. A call that does not parse and store,
or fails, leaves its file as it was; where the script holds no filter all files stay as they were.
Behind a call that parses and stores there is a filter with the rules that were printed, whose
extensions are `fileinto` and all that some accepted script had on. No extension is switched off. -/
theorem RuleSet.stored_filter_follows_scripts (reached : Reached environment here tree accepted)
    (fair : call.Fair environment here tree) :
    ((∀ path, Invocation.ofArguments call.arguments = some (.parse path true) →
        (call.outcome environment tree).code ≠ 0) →
      environment.stored? here (call.left environment tree) = environment.stored? here tree) ∧
    (∀ path save, Invocation.ofArguments call.arguments = some (.parse path save) →
      call.recovered? tree path = none →
        (call.outcome environment tree).code = 1 ∧ call.left environment tree = tree) ∧
    (∀ path, Invocation.ofArguments call.arguments = some (.parse path true) →
      (call.outcome environment tree).code = 0 →
        ∃ printed set, call.recovered? tree path = some printed ∧
          (call.outcome environment tree).output = printed.encode ++ "\n" ∧
          environment.Holds here (call.left environment tree) set ∧ set.rules = printed.rules ∧
          ∀ name, set.extensions.isEnabledName name = true ↔ name = "fileinto" ∨
            ∃ other ∈ accepted ++ [printed], other.extensions.isEnabledName name = true) ∧
    ∀ old, environment.Holds here tree old →
      ∃ new, environment.Holds here (call.left environment tree) new ∧
        ∀ name, old.extensions.isEnabledName name = true →
          new.extensions.isEnabledName name = true := by
  have follows := reached.follows
  have unsaved : (∀ path, Invocation.ofArguments call.arguments = some (.parse path true) →
      (call.outcome environment tree).code ≠ 0) →
      environment.stored? here (call.left environment tree) = environment.stored? here tree :=
    fun unsaved => stored_spares fun _ => Call.left_spares fair unsaved
  refine ⟨unsaved, fun _ _ => Call.run_rejects, ?_, ?_⟩
  · intro path parse succeeded
    obtain ⟨printed, set, recovered, output, rules, remembers, holds, -⟩ :=
      follows.saves fair parse succeeded
    exact ⟨printed, set, recovered, output, holds, rules, remembers⟩
  · intro old held
    by_cases saves : ∃ path, Invocation.ofArguments call.arguments = some (.parse path true) ∧
      (call.outcome environment tree).code = 0
    · obtain ⟨path, parse, succeeded⟩ := saves
      obtain ⟨printed, new, -, -, -, remembers, holds, -⟩ := follows.saves fair parse succeeded
      refine ⟨new, holds, ?_⟩
      intro name on
      refine (remembers name).mpr ?_
      cases follows with
      | unsaved none =>
        obtain ⟨text, stored, -⟩ := held
        rw [none] at stored
        cases stored
      | saved located read distinct before =>
        cases held.unique (holds_of_read located read distinct)
        refine ((before name).mp on).imp_right ?_
        rintro ⟨other, accepted, on⟩
        exact ⟨other, List.mem_append_left _ accepted, on⟩
    · refine ⟨old, ?_, fun _ on => on⟩
      obtain ⟨text, stored, decoded⟩ := held
      refine ⟨text, (unsaved ?_).trans stored, decoded⟩
      exact fun path parse succeeded => saves ⟨path, parse, succeeded⟩

end

namespace Call

def saving (script : String) : Call :=
  ⟨[], script.toUTF8, .startingAt 1, ["parse", "--save"]⟩

def owning : Call := saving "require \"x-own\"; if true \x7b keep; \x7d"

def idle : Call := saving "keep;"

theorem saving_fair {environment : Environment} {tree : FileTree} {script : String}
    (h : ((saving script).run environment tree).1.2.next ≤ 1) :
    (saving script).Fair environment [] tree where
  store _ _ := rfl
  fresh := IdSource.Fresh.until (.one List.not_mem_nil) h
  apart _ _ generates := by cases generates

end Call

def plainEnvironment : Environment := ⟨some "/c", none⟩

/-- A filter is stored, and stays as a script without a rule is to be stored next. -/
theorem owning_filter_stays :
    ∃ tree, tree = Call.owning.left plainEnvironment .empty ∧
      Reached plainEnvironment [] .empty [] ∧ Call.owning.Fair plainEnvironment [] .empty ∧
      (∃ printed set, Call.owning.recovered? .empty "-" = some printed ∧
        plainEnvironment.Holds [] tree set ∧ set.rules = printed.rules ∧
        set.extensions.isEnabledName "x-own" = true ∧
        set.extensions.isEnabledName "fileinto" = true) ∧
      Call.idle.Fair plainEnvironment [] tree ∧
      (Call.idle.outcome plainEnvironment tree).code = 1 ∧
      Call.idle.left plainEnvironment tree = tree := by
  have start : Reached plainEnvironment [] .empty [] := .start (by decide +kernel)
  have fair : Call.owning.Fair plainEnvironment [] .empty := Call.saving_fair (by decide +kernel)
  have asks : Invocation.ofArguments Call.owning.arguments = some (.parse "-" true) := by
    decide +kernel
  have succeeded : (Call.owning.outcome plainEnvironment .empty).code = 0 := by decide +kernel
  have own : (Call.owning.recovered? .empty "-").all
      (·.extensions.isEnabledName "x-own") = true := by
    decide +kernel
  obtain ⟨-, -, saves, -⟩ := RuleSet.stored_filter_follows_scripts start fair
  obtain ⟨printed, set, recovered, -, holds, rules, names⟩ := saves "-" asks succeeded
  rw [recovered] at own
  have reached := start.called Call.owning fair
  generalize left : Call.owning.left plainEnvironment .empty = tree at holds reached
  have fair' : Call.idle.Fair plainEnvironment [] tree := by
    refine Call.saving_fair ?_
    rw [← left]
    decide +kernel
  have none : Call.idle.recovered? tree "-" = none := by
    rw [← left]
    decide +kernel
  obtain ⟨code, same⟩ := (RuleSet.stored_filter_follows_scripts reached fair').2.1 "-" true asks none
  refine ⟨tree, rfl, start, fair, ⟨printed, set, recovered, holds, rules, ?_, ?_⟩, fair', code, same⟩
  · exact (names "x-own").mpr (.inr ⟨printed, List.mem_cons_self, own⟩)
  · exact (names "fileinto").mpr (.inl rfl)

end SieveRules
