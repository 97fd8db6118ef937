import SieveRules.CommandLine
/-!
The program: the commands on the files of the system, with names for rules drawn at random.
-/

namespace SieveRules

namespace Main

/-- The cause of an error of the system. Codes come with either sign. -/
def fileError : IO.Error → FileError
  | .noFileOrDirectory .. => .notFound
  | .alreadyExists .. => .alreadyExists
  | .invalidArgument path code details =>
    if code = 36 ∨ code = 0 - 36 then .nameTooLong
    else .other (toString (IO.Error.invalidArgument path code details))
  | .inappropriateType path code details =>
    if code = 20 ∨ code = 0 - 20 then .notADirectory
    else if code = 21 ∨ code = 0 - 21 then .isADirectory
    else .other (toString (IO.Error.inappropriateType path code details))
  | e => .other (toString e)

def attempt {α : Type} (action : IO α) : ExceptT FileError BaseIO α :=
  ExceptT.mk do
    match ← action.toBaseIO with
    | .ok a => return .ok a
    | .error e => return .error (fileError e)

partial def readAll (stream : IO.FS.Stream) (bytes : ByteArray) : IO ByteArray := do
  let more ← stream.read 65536
  if more.isEmpty then return bytes else readAll stream (bytes ++ more)

def ensureDirectory (path : String) : IO Unit :=
  try IO.FS.createDir path
  catch
    | .alreadyExists file code details =>
      try IO.FS.createDirAll path catch _ => throw (.alreadyExists file code details)
    | e => throw e

/-- Makes a directory, and before that those on the way to it if it cannot be found. -/
partial def createDirectories (path : String) : IO Unit :=
  try ensureDirectory path
  catch
    | .noFileOrDirectory .. => do
      if let some parent := Path.parent? path then
        createDirectories parent
      ensureDirectory path
    | e => throw e

def systemFiles : Files BaseIO where
  read path := attempt (IO.FS.readBinFile path)
  write path content := attempt (IO.FS.writeBinFile path content)
  createDirectories path := attempt (Main.createDirectories path)
  input := attempt do readAll (← IO.getStdin) .empty

def line (event : Event) : String :=
  let fields := event.fields.map fun (name, value) => " " ++ name ++ "=" ++ value.compact
  "warning: " ++ event.message ++ .join fields

def run (arguments : List String) : IO UInt32 := do
  let environment : Environment :=
    ⟨← IO.getEnv "XDG_CONFIG_HOME", ← IO.getEnv "HOME"⟩
  let seed ← IO.getRandomBytes 16
  let source := IdSource.startingAt (seed.toList.foldl (fun n b => n * 256 + b.toNat) 0)
  let performed : BaseIO (Outcome × IdSource) :=
    CommandLine.run systemFiles environment source arguments
  let (outcome, _) ← performed
  for event in outcome.events do
    if event.level = .warn then
      IO.eprintln (line event)
  IO.print outcome.output
  IO.eprint outcome.report
  return outcome.code

end Main

end SieveRules

def main (arguments : List String) : IO UInt32 :=
  SieveRules.Main.run arguments
