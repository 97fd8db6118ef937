import SieveRules.Files.Path
import SieveRules.Layout.Encode
import SieveRules.Layout.Lenient
/-!
Scripts and filters in files. A filter that was never stored is the one to start from.
-/

namespace SieveRules

structure Environment where
  settings : Option String
  home : Option String
  deriving DecidableEq, Repr

inductive StoreError where
  | noDirectory
  | access (path : String) (cause : FileError)
  deriving DecidableEq, Repr

def StoreError.message : StoreError → String
  | noDirectory => "No per-user configuration directory available"
  | access path cause => "Cannot access " ++ path ++ ": " ++ cause.message

namespace Environment

/-- The directory of settings. A relative one does not count. -/
def settingsDirectory? (environment : Environment) : Option String :=
  match environment.settings.filter (·.toList.head? = some '/') with
  | some directory => some directory
  | none => (environment.home.filter (· ≠ "")).map (Path.inside · ".config")

def storePath (environment : Environment) : Except StoreError String :=
  match environment.settingsDirectory? with
  | some directory => .ok (Path.inside (Path.inside directory "sievekit") "sieve-script.json")
  | none => .error .noDirectory

end Environment

namespace Files

variable {m : Type → Type} [Monad m]

def loadText (files : Files m) (path : String) : ExceptT FileError m String := do
  let bytes ← if path = inputPath then files.input else files.read path
  decoded (textOf bytes)
where
  decoded (text : Except FileError String) : ExceptT FileError m String := ExceptT.mk (pure text)

def saveText (files : Files m) (path text : String) : ExceptT FileError m Unit := do
  if let some directory := Path.parent? path then
    files.createDirectories directory
  files.write path text.toUTF8

def loadRuleSet (files : Files m) (path : String) (source : IdSource) :
    ExceptT StoreError m ((RuleSet × IdSource) × List Event) :=
  ExceptT.mk do
    let bytes ← (files.read path).run
    match bytes.bind textOf with
    | .ok text => return .ok (RuleSet.decode text source)
    | .error .notFound => return .ok ((.initial, source), [.nothingStored])
    | .error cause => return .error (.access path cause)

def saveRuleSet (files : Files m) (path : String) (set : RuleSet) : ExceptT StoreError m Unit :=
  ExceptT.mk do
    let saved ← (files.saveText path set.encode).run
    return saved.mapError (.access path)

end Files

end SieveRules
