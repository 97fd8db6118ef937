import SieveRules.Proofs.Steps
import SieveRules.Store
import SieveRules.Files.Tree
/-!
What operations on a tree of files leave as it was. Making directories changes no file, writing
changes one alone, and a path goes on leading where it led as long as the directories stay.
-/

namespace SieveRules

theorem textOf_toUTF8 (text : String) : textOf text.toUTF8 = .ok text := by
  have valid : text.toUTF8.IsValidUTF8 := text.isValidUTF8
  have read : String.fromUTF8? text.toUTF8 = some text := by
    rw [String.fromUTF8?, dif_pos valid]
    rfl
  rw [textOf, read]

theorem Path.ofString?_ok {text : String} {path : Path} (h : ofString? text = .ok path) :
    path = ofString text := by
  unfold ofString? at h
  split at h
  · cases h
  · split at h
    · cases h
    · split at h
      · cases h
      · exact (Except.ok.inj h).symm

def Entry.content? : Entry → Option ByteArray
  | file content => some content
  | directory => none

namespace FileTree

variable {tree tree' : FileTree} {here other place : Place} {path : Path} {text : String}
  {content : ByteArray}

def step (here : Place) (name : String) : Place :=
  if name = "." then here else if name = ".." then here.dropLast else here ++ [name]

/-- The place that a path means, as it is written. -/
def place? (here : Place) (path : Path) : Option Place :=
  match path.names.getLast? with
  | none => none
  | some name =>
    if isDots name then none else some (path.names.dropLast.foldl step (start here path) ++ [name])

theorem look_ok {found : Option Entry} (h : tree.look place = .ok found) :
    found = tree.get? place := by
  unfold look at h
  split at h
  · cases h
  · exact (Except.ok.inj h).symm

theorem enter_ok {name : String} (h : tree.enter here name = .ok place) :
    place = step here name ∧ (name = "." ∨ name = ".." ∨
      tree.look (here ++ [name]) = .ok (some .directory)) := by
  unfold enter at h
  unfold step
  by_cases stays : name = "."
  · rw [if_pos stays] at h ⊢
    exact ⟨(Except.ok.inj h).symm, .inl stays⟩
  · rw [if_neg stays] at h ⊢
    by_cases back : name = ".."
    · rw [if_pos back] at h ⊢
      exact ⟨(Except.ok.inj h).symm, .inr (.inl back)⟩
    · rw [if_neg back] at h ⊢
      obtain ⟨found, hl, h⟩ := except_bind_ok h
      match found, h with
      | some .directory, h => exact ⟨(Except.ok.inj h).symm, .inr (.inr hl)⟩

theorem walk_ok {names : List String} (h : tree.walk here names = .ok place) :
    place = names.foldl step here := by
  induction names generalizing here with
  | nil => exact (Except.ok.inj h).symm
  | cons name names ih =>
    rw [walk, List.foldlM_cons] at h
    obtain ⟨next, he, h⟩ := except_bind_ok h
    rw [ih h, List.foldl_cons, (enter_ok he).1]

theorem locate_ok (h : tree.locate here path = .ok (some place)) :
    place? here path = some place ∧ place ≠ [] := by
  unfold locate at h
  unfold place?
  cases hn : path.names.getLast? with
  | none =>
    rw [hn] at h
    cases h
  | some name =>
    rw [hn] at h
    obtain ⟨directory, hw, h⟩ := except_bind_ok h
    have located := Except.ok.inj h
    split at located
    · cases located
    · rename_i named
      rw [← walk_ok hw]
      simp only [if_neg named, located, true_and]
      rw [← Option.some.inj located]
      simp

def fileAt (tree : FileTree) (place : Place) : Option ByteArray :=
  (tree.get? place).bind Entry.content?

theorem fileAt_put {entry : Entry} (hr : place ≠ []) :
    (tree.put place entry).fileAt other =
      if other = place then entry.content? else tree.fileAt other := by
  rw [fileAt, get?_put _ _ _ _ hr]
  split <;> rfl

/-- Directories are still directories, and at the place there is the file that was there, or still
none. -/
structure Spares (place : Place) (tree tree' : FileTree) : Prop where
  directories : ∀ place, tree.get? place = some .directory → tree'.get? place = some .directory
  file : tree'.fileAt place = tree.fileAt place

namespace Spares

theorem refl (place : Place) (tree : FileTree) : Spares place tree tree :=
  ⟨fun _ h => h, rfl⟩

theorem trans {tree'' : FileTree} (h : Spares place tree tree') (h' : Spares place tree' tree'') :
    Spares place tree tree'' :=
  ⟨fun place hd => h'.directories place (h.directories place hd), h'.file.trans h.file⟩

end Spares

theorem put_directories {entry : Entry} (hr : place ≠ []) (h : tree.get? place ≠ some .directory)
    (hd : tree.get? other = some .directory) :
    (tree.put place entry).get? other = some .directory := by
  rw [get?_put _ _ _ _ hr, if_neg, hd]
  rintro rfl
  exact h hd

section

variable (directories : ∀ place, tree.get? place = some .directory →
  tree'.get? place = some .directory)

include directories

theorem look_directory (h : tree.look place = .ok (some .directory)) :
    tree'.look place = .ok (some .directory) := by
  unfold look at h ⊢
  split at h
  · cases h
  · rename_i short
    rw [if_neg short, directories place (Except.ok.inj h)]

theorem enter_stays {name : String} (h : tree.enter here name = .ok place) :
    tree'.enter here name = .ok place := by
  obtain ⟨rfl, way⟩ := enter_ok h
  unfold enter step
  rcases way with rfl | rfl | way
  · rfl
  · rfl
  · have way := look_directory directories way
    split
    · rfl
    · split
      · rfl
      · rw [way]
        rfl

theorem walk_stays {names : List String} (h : tree.walk here names = .ok place) :
    tree'.walk here names = .ok place := by
  induction names generalizing here with
  | nil => exact h
  | cons name names ih =>
    rw [walk, List.foldlM_cons] at h ⊢
    obtain ⟨next, he, h⟩ := except_bind_ok h
    rw [enter_stays directories he]
    exact ih h

theorem locate_stays {found : Option Place} (h : tree.locate here path = .ok found) :
    tree'.locate here path = .ok found := by
  unfold locate at h ⊢
  split
  · rename_i hn
    rw [hn] at h
    exact h
  · rename_i name hn
    rw [hn] at h
    obtain ⟨directory, hw, h⟩ := except_bind_ok h
    rw [walk_stays directories hw]
    exact h

end

theorem fileAt_eq_some :
    tree.fileAt place = some content ↔ tree.get? place = some (.file content) := by
  unfold fileAt
  cases tree.get? place with
  | none => simp
  | some entry => cases entry <;> simp [Entry.content?]

theorem read_ok_iff : tree.read here text = .ok content ↔
    Path.ofString? text = .ok (.ofString text) ∧ (Path.ofString text).endsInStroke = false ∧
    ∃ place, tree.locate here (.ofString text) = .ok (some place) ∧
      tree.look place = .ok (some (.file content)) := by
  constructor
  · intro h
    obtain ⟨path, hp, h⟩ := except_bind_ok h
    obtain rfl := Path.ofString?_ok hp
    obtain ⟨found, hl, h⟩ := except_bind_ok h
    match found, hl, h with
    | some place, hl, h =>
      obtain ⟨entry, he, h⟩ := except_bind_ok h
      match entry, he, h with
      | some (.file stored), he, h =>
        simp only at h
        split at h
        · cases h
        · rename_i plain
          obtain rfl := Except.ok.inj h
          exact ⟨hp, Bool.eq_false_iff.mpr plain, place, hl, he⟩
  · rintro ⟨hp, plain, place, hl, he⟩
    simp only [read, hp, hl, he, plain, bind, Except.bind]
    rfl

theorem fileAt_of_read (h : tree.read here text = .ok content) :
    ∃ place, place? here (.ofString text) = some place ∧ tree.fileAt place = some content := by
  obtain ⟨-, -, place, hl, he⟩ := read_ok_iff.mp h
  exact ⟨place, (locate_ok hl).1, fileAt_eq_some.mpr (look_ok he).symm⟩

theorem read_spares (h : tree.read here text = .ok content)
    (spared : ∀ place, place? here (.ofString text) = some place → Spares place tree tree') :
    tree'.read here text = .ok content := by
  obtain ⟨hp, plain, place, hl, he⟩ := read_ok_iff.mp h
  have stays := spared place (locate_ok hl).1
  refine read_ok_iff.mpr ⟨hp, plain, place, locate_stays stays.directories hl, ?_⟩
  have file : tree'.get? place = some (.file content) := by
    rw [← fileAt_eq_some, stays.file, fileAt_eq_some]
    exact (look_ok he).symm
  unfold look at he ⊢
  split at he
  · cases he
  · rename_i short
    rw [if_neg short, file]

theorem locate_start (h : start here path = start other path) :
    tree.locate here path = tree.locate other path := by
  unfold locate
  rw [h]

theorem read_start (h : start here (.ofString text) = start other (.ofString text)) :
    tree.read here text = tree.read other text := by
  unfold read
  cases hp : Path.ofString? text with
  | error e => rfl
  | ok path =>
    obtain rfl := Path.ofString?_ok hp
    simp only [bind, Except.bind, locate_start h]

/-- Where a write goes well, what was written is read, and all other files are spared. -/
theorem write_ok (h : tree.write here text content = .ok tree') :
    ∃ place, place? here (.ofString text) = some place ∧ tree'.read here text = .ok content ∧
      ∀ other, other ≠ place → Spares other tree tree' := by
  obtain ⟨path, hp, h⟩ := except_bind_ok h
  obtain rfl := Path.ofString?_ok hp
  obtain ⟨found, hl, h⟩ := except_bind_ok h
  match found, hl, h with
  | some place, hl, h =>
    simp only at h
    split at h
    · cases h
    · rename_i plain
      obtain ⟨entry, he, h⟩ := except_bind_ok h
      obtain ⟨means, named⟩ := locate_ok hl
      have free : tree.get? place ≠ some .directory := by
        rw [← look_ok he]
        rintro rfl
        cases h
      obtain rfl : tree' = tree.put place (.file content) := by
        split at h
        · cases h
        · exact (Except.ok.inj h).symm
      refine ⟨place, means, ?_, ?_⟩
      · refine read_ok_iff.mpr ⟨hp, Bool.eq_false_iff.mpr plain, place,
          locate_stays (fun _ => put_directories named free) hl, ?_⟩
        unfold look at he ⊢
        split at he
        · cases he
        · rename_i short
          rw [if_neg short, get?_put _ _ _ _ named, if_pos rfl]
      · intro other apart
        exact ⟨fun _ => put_directories named free, by rw [fileAt_put named, if_neg apart]⟩

theorem makeDirectory_ok (h : tree.makeDirectory here path = .ok tree') (place : Place) :
    Spares place tree tree' := by
  obtain ⟨found, hl, h⟩ := except_bind_ok h
  match found, hl, h with
  | some new, hl, h =>
    obtain ⟨entry, he, h⟩ := except_bind_ok h
    match entry, he, h with
    | none, he, h =>
      obtain rfl := Except.ok.inj h
      obtain ⟨-, named⟩ := locate_ok hl
      have free : tree.get? new = none := (look_ok he).symm
      refine ⟨fun _ => put_directories named (by simp [free]), ?_⟩
      rw [fileAt_put named]
      split
      · rename_i at'
        rw [at', fileAt, free]
        rfl
      · rfl

theorem ensureDirectory_ok (h : tree.ensureDirectory here path = .ok tree') (place : Place) :
    Spares place tree tree' := by
  unfold ensureDirectory at h
  split at h
  · split at h
    · obtain rfl := Except.ok.inj h
      exact .refl place tree
    · cases h
  · exact makeDirectory_ok h place

theorem change_spares {f : FileTree → Except FileError FileTree}
    (h : ∀ tree', f tree = .ok tree' → Spares place tree tree') :
    Spares place tree (change f tree).2 := by
  unfold change
  split
  · rename_i changed hc
    exact h changed hc
  · exact .refl place tree

theorem ensureDirectories_spares (place : Place) (paths : List Path) (tree : FileTree) :
    Spares place tree (ensureDirectories here paths tree).2 := by
  induction paths generalizing tree with
  | nil => exact .refl place tree
  | cons path parents ih =>
    rw [ensureDirectories]
    split
    · have before := ih tree
      split
      · rename_i made hm
        rw [hm] at before
        exact before.trans (change_spares fun _ h => ensureDirectory_ok h place)
      · exact before
    · exact .refl place tree
    · rename_i made hm
      exact ensureDirectory_ok hm place

/-- Whatever directories are made, and even if that fails on the way, all files are spared. -/
theorem createDirectories_spares (place : Place) (text : String) (tree : FileTree) :
    Spares place tree (createDirectories here text tree).2 := by
  unfold createDirectories
  split
  · exact .refl place tree
  · split
    · exact .refl place tree
    · exact ensureDirectories_spares place _ tree

end FileTree

end SieveRules
