import SieveRules.Files
/-!
Paths as they are written: names with strokes between them, from the root or from where one stands.
-/

namespace SieveRules

def pieces : List Char → List (List Char)
  | [] => [[]]
  | c :: rest =>
    if c = '/' then [] :: pieces rest
    else
      match pieces rest with
      | [] => [[c]]
      | piece :: more => (c :: piece) :: more

structure Path where
  isAbsolute : Bool
  /-- The names on the way, dots included. -/
  names : List String
  /-- A stroke at the end asks for a directory. -/
  endsInStroke : Bool
  deriving DecidableEq, Repr

namespace Path

def maxSize : Nat := 4095

def maxNameSize : Nat := 255

def ofString (text : String) : Path :=
  let chars := text.toList
  ⟨chars.head? = some '/', ((pieces chars).filter (!·.isEmpty)).map String.ofList,
    chars.getLast? = some '/'⟩

def ofString? (text : String) : Except FileError Path :=
  if text = "" then .error .notFound
  else if '\x00' ∈ text.toList then .error .nulInPath
  else if maxSize < text.utf8ByteSize then .error .nameTooLong
  else .ok (ofString text)

def steps (path : Path) : List String :=
  path.names.filter (· ≠ ".")

/-- The directories that a path leads through, the last one first. -/
def parents (path : Path) : List Path :=
  (List.range' 1 (path.steps.length - 1)).reverse.map fun n =>
    ⟨path.isAbsolute, path.steps.take n, false⟩

def render (path : Path) : String :=
  (if path.isAbsolute then "/" else "") ++ "/".intercalate path.names ++
    if path.endsInStroke && !path.names.isEmpty then "/" else ""

/-- The directory that a path leads through last. There is none to speak of for one name alone. -/
def parent? (text : String) : Option String :=
  (ofString text).parents.head?.map render

def inside (directory name : String) : String :=
  if directory.toList.getLast? = some '/' then directory ++ name else directory ++ "/" ++ name

end Path

end SieveRules
