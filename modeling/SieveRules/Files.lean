/-!
What a command does with files. Commands are written over these operations, so that they run on a
file system as well as on a tree of files that is a value.
-/

namespace SieveRules

inductive FileError where
  | notFound
  | notADirectory
  | isADirectory
  | alreadyExists
  | nameTooLong
  | nulInPath
  | notText
  | other (message : String)
  deriving DecidableEq, Repr

def FileError.message : FileError → String
  | notFound => "No such file or directory (os error 2)"
  | notADirectory => "Not a directory (os error 20)"
  | isADirectory => "Is a directory (os error 21)"
  | alreadyExists => "File exists (os error 17)"
  | nameTooLong => "File name too long (os error 36)"
  | nulInPath => "file name contained an unexpected NUL byte"
  | notText => "stream did not contain valid UTF-8"
  | other message => message

structure Files (m : Type → Type) where
  read : String → ExceptT FileError m ByteArray
  write : String → ByteArray → ExceptT FileError m Unit
  /-- Makes a directory and all those on the way to it, as far as they are missing. -/
  createDirectories : String → ExceptT FileError m Unit
  input : ExceptT FileError m ByteArray

def inputPath : String := "-"

def textOf (bytes : ByteArray) : Except FileError String :=
  match String.fromUTF8? bytes with
  | some text => .ok text
  | none => .error .notText

end SieveRules
