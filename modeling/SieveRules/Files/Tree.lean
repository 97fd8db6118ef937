import SieveRules.Files.Path
/-!
A tree of files, held as a list of what stands at which place. The latest entry of a place counts.
-/

namespace SieveRules

abbrev Place := List String

inductive Entry where
  | file (content : ByteArray)
  | directory

structure FileTree where
  entries : List (Place × Entry)

namespace FileTree

def empty : FileTree := ⟨[]⟩

def get? (tree : FileTree) (place : Place) : Option Entry :=
  if place = [] then some .directory else tree.entries.lookup place

def put (tree : FileTree) (place : Place) (entry : Entry) : FileTree :=
  ⟨(place, entry) :: tree.entries⟩

theorem get?_put (tree : FileTree) (place other : Place) (entry : Entry) (h : place ≠ []) :
    (tree.put place entry).get? other =
      if other = place then some entry else tree.get? other := by
  by_cases he : other = place
  · subst he
    simp [get?, put, h]
  · by_cases hn : other = []
    · subst hn
      simp [get?, he]
    · simp [get?, put, he, hn, List.lookup_cons, beq_eq_false_iff_ne.2 he]

def look (tree : FileTree) (place : Place) : Except FileError (Option Entry) :=
  if (place.getLast?.any fun name => Path.maxNameSize < name.utf8ByteSize) then .error .nameTooLong
  else .ok (tree.get? place)

def enter (tree : FileTree) (here : Place) (name : String) : Except FileError Place :=
  if name = "." then .ok here
  else if name = ".." then .ok here.dropLast
  else do
    match ← tree.look (here ++ [name]) with
    | some .directory => .ok (here ++ [name])
    | some (.file _) => .error .notADirectory
    | none => .error .notFound

def walk (tree : FileTree) (here : Place) (names : List String) : Except FileError Place :=
  names.foldlM tree.enter here

def isDots (name : String) : Bool :=
  name = "." || name = ".."

def start (here : Place) (path : Path) : Place :=
  if path.isAbsolute then [] else here

/-- The place that a path means, or none where its end names no place but a directory that is there.
The directories on the way have to be there. -/
def locate (tree : FileTree) (here : Place) (path : Path) : Except FileError (Option Place) :=
  match path.names.getLast? with
  | none => .ok none
  | some name => do
    let directory ← tree.walk (start here path) path.names.dropLast
    return if isDots name then none else some (directory ++ [name])

def read (tree : FileTree) (here : Place) (text : String) : Except FileError ByteArray := do
  let path ← Path.ofString? text
  match ← tree.locate here path with
  | none => .error .isADirectory
  | some place =>
    match ← tree.look place with
    | none => .error .notFound
    | some .directory => .error .isADirectory
    | some (.file content) => if path.endsInStroke then .error .notADirectory else .ok content

def write (tree : FileTree) (here : Place) (text : String) (content : ByteArray) :
    Except FileError FileTree := do
  let path ← Path.ofString? text
  match ← tree.locate here path with
  | none => .error .isADirectory
  | some place =>
    if path.endsInStroke then .error .isADirectory
    else
      match ← tree.look place with
      | some .directory => .error .isADirectory
      | _ => .ok (tree.put place (.file content))

def isDirectory (tree : FileTree) (here : Place) (path : Path) : Bool :=
  (tree.walk (start here path) path.names).isOk

def makeDirectory (tree : FileTree) (here : Place) (path : Path) : Except FileError FileTree := do
  match ← tree.locate here path with
  | none => .error .alreadyExists
  | some place =>
    match ← tree.look place with
    | some _ => .error .alreadyExists
    | none => .ok (tree.put place .directory)

def ensureDirectory (tree : FileTree) (here : Place) (path : Path) : Except FileError FileTree :=
  match tree.makeDirectory here path with
  | .error .alreadyExists =>
    if tree.isDirectory here path then .ok tree else .error .alreadyExists
  | outcome => outcome

/-- A change that may fail on the way: what it came to, and the tree it left. -/
abbrev Change := FileTree → Except FileError Unit × FileTree

def change (f : FileTree → Except FileError FileTree) : Change := fun tree =>
  match f tree with
  | .ok changed => (.ok (), changed)
  | .error e => (.error e, tree)

/-- Makes a directory, and before that those on the way to it if it cannot be found. What was made
stays where a later step fails. -/
def ensureDirectories (here : Place) : List Path → Change
  | [], tree => (.ok (), tree)
  | path :: parents, tree =>
    match tree.ensureDirectory here path with
    | .error .notFound =>
      match ensureDirectories here parents tree with
      | (.ok (), tree) => change (·.ensureDirectory here path) tree
      | failed => failed
    | .error e => (.error e, tree)
    | .ok tree => (.ok (), tree)

def createDirectories (here : Place) (text : String) : Change := fun tree =>
  if text = "" then (.ok (), tree)
  else
    match Path.ofString? text with
    | .error e => (.error e, tree)
    | .ok path => ensureDirectories here (path :: path.parents) tree

def files (here : Place) (input : ByteArray) : Files (StateM FileTree) where
  read text := ExceptT.mk fun tree => (tree.read here text, tree)
  write text content := ExceptT.mk (change fun tree => tree.write here text content)
  createDirectories text := ExceptT.mk (createDirectories here text)
  input := pure input

end FileTree

end SieveRules
