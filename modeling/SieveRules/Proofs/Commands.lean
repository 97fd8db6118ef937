import SieveRules.CommandLine
import SieveRules.Proofs.Files
/-!
What commands do to a tree of files. Filters and scripts are read without a trace, and the last step
of a command is the only one that may write.
-/

namespace SieveRules

namespace FileTree

variable {here : Place} {input : ByteArray} {tree tree' : FileTree} {path text : String}

def text? (tree : FileTree) (here : Place) (input : ByteArray) (path : String) :
    Except FileError String :=
  (if path = inputPath then .ok input else tree.read here path).bind textOf

def ruleSet? (tree : FileTree) (here : Place) (path : String) (source : IdSource) :
    Except StoreError ((RuleSet × IdSource) × List Event) :=
  match (tree.read here path).bind textOf with
  | .ok text => .ok (RuleSet.decode text source)
  | .error .notFound => .ok ((.initial, source), [.nothingStored])
  | .error cause => .error (.access path cause)

theorem loadText_run :
    ((files here input).loadText path).run tree = (tree.text? here input path, tree) := by
  unfold text? Files.loadText
  by_cases h : path = inputPath
  · rw [if_pos h, if_pos h]
    rfl
  · have read : ((files here input).read path).run tree = (tree.read here path, tree) := rfl
    rw [if_neg h, if_neg h, exceptT_bind, read]
    cases tree.read here path <;> rfl

theorem loadRuleSet_run (source : IdSource) :
    ((files here input).loadRuleSet path source).run tree =
      (tree.ruleSet? here path source, tree) := by
  unfold ruleSet? Files.loadRuleSet
  change (match (tree.read here path).bind textOf with
    | .ok text => _
    | .error .notFound => _
    | .error cause => _ : StateM FileTree _) tree = _
  cases (tree.read here path).bind textOf with
  | ok text => rfl
  | error cause => cases cause <;> rfl

theorem saveText_run : ((files here input).saveText path text).run tree =
    match ((Path.parent? path).elim (.ok (), tree) fun directory =>
      createDirectories here directory tree) with
    | (.ok (), tree) => change (fun tree => tree.write here path text.toUTF8) tree
    | (.error e, tree) => (.error e, tree) := by
  unfold Files.saveText
  cases Path.parent? path with
  | none => rfl
  | some directory =>
    have made : ((files here input).createDirectories directory).run tree =
      createDirectories here directory tree := rfl
    simp only [Option.elim_some]
    rw [exceptT_bind, made]
    obtain ⟨result, left⟩ := createDirectories here directory tree
    cases result <;> rfl

theorem parents_spares (place : Place) :
    Spares place tree ((Path.parent? path).elim (.ok (), tree) fun directory =>
      createDirectories here directory tree).2 := by
  cases Path.parent? path with
  | none => exact .refl place tree
  | some directory => exact createDirectories_spares place directory tree

theorem saveText_ok (h : ((files here input).saveText path text).run tree = (.ok (), tree')) :
    ∃ place, place? here (.ofString path) = some place ∧
      tree'.read here path = .ok text.toUTF8 ∧ ∀ other, other ≠ place → Spares other tree tree' := by
  rw [saveText_run] at h
  have before := fun place => @parents_spares here tree path place
  split at h
  · rename_i made hm
    rw [hm] at before
    unfold change at h
    split at h
    · rename_i changed hw
      cases h
      obtain ⟨place, hp, hr, others⟩ := write_ok hw
      exact ⟨place, hp, hr, fun other apart => (before other).trans (others other apart)⟩
    · cases h
  · cases h

theorem saveText_error {e : FileError}
    (h : ((files here input).saveText path text).run tree = (.error e, tree')) (place : Place) :
    Spares place tree tree' := by
  rw [saveText_run] at h
  have before := @parents_spares here tree path place
  split at h
  · rename_i made hm
    rw [hm] at before
    unfold change at h
    split at h
    · cases h
    · cases h
      exact before
  · rename_i made hm
    rw [hm] at before
    cases h
    exact before

theorem saveRuleSet_run {set : RuleSet} {outcome : Except StoreError Unit}
    (h : ((files here input).saveRuleSet path set).run tree = (outcome, tree')) :
    ∃ saved, ((files here input).saveText path set.encode).run tree = (saved, tree') ∧
      outcome = saved.mapError (.access path) := by
  obtain ⟨rfl, rfl⟩ := Prod.mk.inj
    (h : (((files here input).saveText path set.encode).run tree).map
      (·.mapError (StoreError.access path)) id = _)
  exact ⟨_, rfl, rfl⟩

end FileTree

namespace CommandLine

variable {α β : Type} {progress progress' : Progress} {tree tree' : FileTree}

def Run.on (action : Run (StateM FileTree) α) (progress : Progress) (tree : FileTree) :
    (Except Failure α × Progress) × FileTree :=
  action.run progress tree

theorem bind_on (action : Run (StateM FileTree) α) (next : α → Run (StateM FileTree) β) :
    Run.on (action >>= next) progress tree =
      match action.on progress tree with
      | ((.ok a, progress), tree) => (next a).on progress tree
      | ((.error e, progress), tree) => ((.error e, progress), tree) := by
  unfold Run.on
  change ((action.run progress : StateM FileTree _) >>= fun ran => ExceptT.bindCont next ran.1 ran.2)
    tree = _
  rw [stateM_bind]
  obtain ⟨⟨result, after⟩, left⟩ := action.run progress tree
  cases result <;> rfl

theorem attempt_run {ε : Type} {action : ExceptT ε (StateM FileTree) α} {failure : ε → Failure}
    {outcome : Except Failure α}
    (h : (attempt action failure).on progress tree = ((outcome, progress'), tree')) :
    ∃ result, action.run tree = (result, tree') ∧ outcome = result.mapError failure ∧
      progress = progress' := by
  obtain ⟨ran, rfl⟩ := Prod.mk.inj
    (h : (((action.run tree).1.mapError failure, progress), (action.run tree).2) = _)
  obtain ⟨rfl, rfl⟩ := Prod.mk.inj ran
  exact ⟨_, rfl, rfl, rfl⟩

theorem mapError_ok {ε ε' : Type} {result : Except ε α} {f : ε → ε'} {a : α}
    (h : .ok a = result.mapError f) : result = .ok a := by
  cases result with
  | error e => cases h
  | ok value => rw [Except.ok.inj h]

theorem attempt_ok {ε : Type} {action : ExceptT ε (StateM FileTree) α} {failure : ε → Failure}
    {a : α} (h : (attempt action failure).on progress tree = ((.ok a, progress'), tree')) :
    action.run tree = (.ok a, tree') ∧ progress = progress' := by
  obtain ⟨result, ran, mapped, same⟩ := attempt_run h
  rw [mapError_ok mapped] at ran
  exact ⟨ran, same⟩

theorem bind_ok {action : Run (StateM FileTree) α} {next : α → Run (StateM FileTree) β} {b : β}
    (h : Run.on (action >>= next) progress tree = ((.ok b, progress'), tree')) :
    ∃ a between left, action.on progress tree = ((.ok a, between), left) ∧
      (next a).on between left = ((.ok b, progress'), tree') := by
  rw [bind_on] at h
  split at h
  · rename_i a between left ha
    exact ⟨a, between, left, ha, h⟩
  · cases h

def Run.ReadsOnly (action : Run (StateM FileTree) α) : Prop :=
  ∀ progress tree, (action.on progress tree).2 = tree

theorem Run.ReadsOnly.bind {action : Run (StateM FileTree) α}
    {next : α → Run (StateM FileTree) β} (h : ReadsOnly action) (hn : ∀ a, ReadsOnly (next a)) :
    ReadsOnly (action >>= next) := by
  intro progress tree
  have first := h progress tree
  rw [bind_on]
  split
  · rename_i a between left ha
    rw [ha] at first
    cases first
    exact hn a between left
  · rename_i e between left ha
    rw [ha] at first
    exact first

theorem attempt_readsOnly {ε : Type} {action : ExceptT ε (StateM FileTree) α} (failure : ε → Failure)
    (h : ∀ tree, (action.run tree).2 = tree) : (attempt action failure).ReadsOnly :=
  fun _ => h

/-- A step that leaves all files as they were where it fails. -/
def Run.Careful (action : Run (StateM FileTree) α) : Prop :=
  ∀ progress tree e progress' tree',
    action.on progress tree = ((.error e, progress'), tree') →
      ∀ place, FileTree.Spares place tree tree'

theorem Run.ReadsOnly.careful {action : Run (StateM FileTree) α} (h : ReadsOnly action) :
    Careful action := by
  intro progress tree e progress' tree' run place
  have same := h progress tree
  rw [run] at same
  cases same
  exact .refl place _

theorem Run.ReadsOnly.bind_careful {action : Run (StateM FileTree) α}
    {next : α → Run (StateM FileTree) β} (h : ReadsOnly action) (hn : ∀ a, Careful (next a)) :
    Careful (action >>= next) := by
  intro progress tree e progress' tree' run place
  have first := h progress tree
  rw [bind_on] at run
  split at run
  · rename_i a between left ha
    rw [ha] at first
    cases first
    exact hn a _ _ _ _ _ run place
  · rename_i cause between left ha
    rw [ha] at first
    cases first
    cases run
    exact .refl place _

theorem attempt_careful {ε : Type} {action : ExceptT ε (StateM FileTree) Unit}
    (failure : ε → Failure) (h : ∀ tree e tree', action.run tree = (.error e, tree') →
      ∀ place, FileTree.Spares place tree tree') : (attempt action failure).Careful := by
  intro progress tree e progress' tree' run
  obtain ⟨result, ran, mapped, -⟩ := attempt_run run
  cases result with
  | error cause => exact h tree cause tree' ran
  | ok done => cases mapped

section

variable {here : Place} {input : ByteArray} {environment : Environment} {path : String}

theorem script_readsOnly : (script (FileTree.files here input) path).ReadsOnly := by
  unfold script
  refine .bind (attempt_readsOnly _ fun tree => by rw [FileTree.loadText_run]) ?_
  intro text
  refine .bind (fun _ _ => rfl) ?_
  intro progress
  split
  · exact fun _ _ => rfl
  · exact .bind (fun _ _ => rfl) fun _ => fun _ _ => rfl

theorem stored_readsOnly : (stored (FileTree.files here input) environment).ReadsOnly := by
  unfold stored
  refine .bind (fun _ _ => rfl) ?_
  intro path
  refine .bind (fun _ _ => rfl) ?_
  intro progress
  refine .bind (attempt_readsOnly _ fun tree => by rw [FileTree.loadRuleSet_run]) ?_
  intro read
  exact .bind (fun _ _ => rfl) fun _ => fun _ _ => rfl

theorem model_readsOnly (source : Option String) :
    (model (FileTree.files here input) environment source).ReadsOnly := by
  unfold model
  cases source with
  | some path =>
    refine .bind (attempt_readsOnly _ fun tree => by rw [FileTree.loadText_run]) ?_
    intro text
    exact .bind (fun _ _ => rfl) fun _ => fun _ _ => rfl
  | none => exact .bind stored_readsOnly fun _ => fun _ _ => rfl

theorem script_ok {set : RuleSet}
    (h : (script (FileTree.files here input) path).on progress tree =
      ((.ok set, progress'), tree')) :
    ∃ text, tree.text? here input path = .ok text ∧
      (RuleSet.parse text progress.source).1 = .ok (set, progress'.source) ∧
      progress'.output = progress.output ∧ tree = tree' := by
  unfold script at h
  obtain ⟨text, between, left, ht, h⟩ := bind_ok h
  obtain ⟨loaded, rfl⟩ := attempt_ok ht
  rw [FileTree.loadText_run] at loaded
  obtain ⟨read, rfl⟩ := Prod.mk.inj loaded
  obtain ⟨now, between', left, hg, h⟩ := bind_ok h
  cases hg
  obtain ⟨⟨outcome, events⟩, parsed⟩ : ∃ x, RuleSet.parse text progress.source = x := ⟨_, rfl⟩
  rw [parsed] at h
  cases outcome with
  | error cause => cases h
  | ok recovered =>
    cases h
    exact ⟨text, read, by rw [parsed], rfl, rfl⟩

theorem stored_ok {set : RuleSet}
    (h : (stored (FileTree.files here input) environment).on progress tree =
      ((.ok (path, set), progress'), tree')) :
    environment.storePath = .ok path ∧
      (∃ events, tree.ruleSet? here path progress.source = .ok ((set, progress'.source), events)) ∧
      progress'.output = progress.output ∧ tree = tree' := by
  unfold stored at h
  obtain ⟨directed, between, left, hd, h⟩ := bind_ok h
  obtain ⟨run, rfl⟩ := attempt_ok hd
  obtain ⟨located, rfl⟩ := Prod.mk.inj (run : (environment.storePath, tree) = _)
  obtain ⟨now, between', left, hg, h⟩ := bind_ok h
  cases hg
  obtain ⟨read, between', left, hr, h⟩ := bind_ok h
  obtain ⟨loaded, rfl⟩ := attempt_ok hr
  rw [FileTree.loadRuleSet_run] at loaded
  obtain ⟨found, rfl⟩ := Prod.mk.inj loaded
  cases h
  exact ⟨located, ⟨_, found⟩, rfl, rfl⟩

/-- Where rules are stored, the filter that was read before has taken them over, and is read from
then on. -/
theorem store_ok {parsed : RuleSet}
    (h : (store (FileTree.files here input) environment parsed).on progress tree =
      ((.ok (), progress'), tree')) :
    ∃ path old source events, environment.storePath = .ok path ∧
      tree.ruleSet? here path progress.source = .ok ((old, source), events) ∧
      progress'.source = (old.adopt parsed source).2 ∧ progress'.output = progress.output ∧
      tree'.read here path = .ok (old.adopt parsed source).1.encode.toUTF8 := by
  unfold store at h
  obtain ⟨⟨path, old⟩, between, left, hs, h⟩ := bind_ok h
  obtain ⟨located, ⟨events, loaded⟩, output, rfl⟩ := stored_ok hs
  obtain ⟨now, between', left, hg, h⟩ := bind_ok h
  cases hg
  obtain ⟨done, between', left, hm, h⟩ := bind_ok h
  cases hm
  obtain ⟨stored, rfl⟩ := attempt_ok h
  obtain ⟨saved, written, mapped⟩ := FileTree.saveRuleSet_run stored
  rw [mapError_ok mapped] at written
  obtain ⟨place, -, read, -⟩ := FileTree.saveText_ok written
  exact ⟨path, old, between.source, events, located, loaded, rfl, output, read⟩

theorem store_careful (parsed : RuleSet) :
    (store (FileTree.files here input) environment parsed).Careful := by
  unfold store
  refine stored_readsOnly.bind_careful ?_
  rintro ⟨path, old⟩
  refine Run.ReadsOnly.bind_careful (fun _ _ => rfl) ?_
  intro progress
  refine Run.ReadsOnly.bind_careful (fun _ _ => rfl) ?_
  intro done
  refine attempt_careful _ ?_
  intro tree e tree' run
  obtain ⟨saved, written, mapped⟩ := FileTree.saveRuleSet_run run
  cases saved with
  | error cause => exact FileTree.saveText_error written
  | ok done => cases mapped

theorem perform_readsOnly {invocation : Invocation}
    (unwritten : ∀ model output, invocation ≠ .generate model (some output))
    (unsaved : ∀ path, invocation ≠ .parse path true) :
    (perform (FileTree.files here input) environment invocation).ReadsOnly := by
  cases invocation with
  | generate source output =>
    refine (model_readsOnly source).bind ?_
    intro set
    cases output with
    | none => exact fun _ _ => rfl
    | some path => exact absurd rfl (unwritten source path)
  | parse path save =>
    refine script_readsOnly.bind ?_
    intro parsed
    cases save with
    | false => exact fun _ _ => rfl
    | true => exact absurd rfl (unsaved path)
  | validate source => exact (model_readsOnly source).bind fun _ => fun _ _ => rfl
  | help | version => exact fun _ _ => rfl

theorem perform_careful (invocation : Invocation) :
    (perform (FileTree.files here input) environment invocation).Careful := by
  cases invocation with
  | generate source output =>
    cases output with
    | none => exact (perform_readsOnly (by simp) (by simp)).careful
    | some path =>
      exact (model_readsOnly source).bind_careful fun _ =>
        attempt_careful _ fun _ _ _ => FileTree.saveText_error
  | parse path save =>
    cases save with
    | false => exact (perform_readsOnly (by simp) (by simp)).careful
    | true =>
      refine script_readsOnly.bind_careful ?_
      intro parsed
      exact Run.ReadsOnly.bind_careful (fun _ _ => rfl) fun _ => store_careful parsed
  | validate source => exact (perform_readsOnly (by simp) (by simp)).careful
  | help | version => exact (perform_readsOnly (by simp) (by simp)).careful

/-- A command that does not store a filter leaves the files as they were, but for the one that it
writes its output to. -/
theorem perform_spares {invocation : Invocation}
    (h : (perform (FileTree.files here input) environment invocation).on progress tree =
      ((.ok (), progress'), tree')) (place : Place)
    (apart : ∀ model output, invocation = .generate model (some output) →
      FileTree.place? here (.ofString output) ≠ some place)
    (unsaved : ∀ path, invocation ≠ .parse path true) : FileTree.Spares place tree tree' := by
  by_cases written : ∃ model output, invocation = .generate model (some output)
  · obtain ⟨source, output, rfl⟩ := written
    obtain ⟨set, between, left, hm, wrote⟩ := bind_ok h
    have same := @model_readsOnly here input environment source progress tree
    rw [hm] at same
    cases same
    obtain ⟨saved, -⟩ := attempt_ok wrote
    obtain ⟨target, means, -, others⟩ := FileTree.saveText_ok saved
    refine others place ?_
    rintro rfl
    exact apart source output rfl means
  · have reads := @perform_readsOnly here input environment invocation
      (fun model output he => written ⟨model, output, he⟩) unsaved progress tree
    rw [h] at reads
    cases reads
    exact .refl place _

theorem perform_saves
    (h : (perform (FileTree.files here input) environment (.parse path true)).on progress tree =
      ((.ok (), progress'), tree')) :
    ∃ text printed source, tree.text? here input path = .ok text ∧
      (RuleSet.parse text progress.source).1 = .ok (printed, source) ∧
      progress'.output = progress.output ++ (printed.encode ++ "\n") ∧
      ∃ file old source' events, environment.storePath = .ok file ∧
        tree.ruleSet? here file source = .ok ((old, source'), events) ∧
        progress'.source = (old.adopt printed source').2 ∧
        tree'.read here file = .ok (old.adopt printed source').1.encode.toUTF8 := by
  obtain ⟨printed, between, left, hs, h⟩ := bind_ok h
  obtain ⟨text, read, parsed, output, rfl⟩ := script_ok hs
  obtain ⟨done, between', left, hp, h⟩ := bind_ok h
  cases hp
  obtain ⟨file, old, source', events, located, loaded, moved, after, stored⟩ := store_ok h
  refine ⟨text, printed, between.source, read, parsed, ?_, file, old, source', events, located,
    loaded, moved, stored⟩
  rw [after, ← output]

theorem perform_rejects {save : Bool}
    (h : ∀ text recovered, tree.text? here input path = .ok text →
      (RuleSet.parse text progress.source).1 ≠ .ok recovered) :
    ∃ e progress', (perform (FileTree.files here input) environment (.parse path save)).on
      progress tree = ((.error e, progress'), tree) := by
  obtain ⟨⟨⟨result, between⟩, left⟩, hs⟩ :
    ∃ x, (script (FileTree.files here input) path).on progress tree = x := ⟨_, rfl⟩
  have same := @script_readsOnly here input path progress tree
  rw [hs] at same
  cases same
  cases result with
  | error e =>
    refine ⟨e, between, ?_⟩
    rw [perform, bind_on, hs]
  | ok set =>
    obtain ⟨text, read, parsed, -, -⟩ := script_ok hs
    exact absurd parsed (h text _ read)

end

end CommandLine

end SieveRules
