import SieveRules.CommandLine.Invocation
import SieveRules.RuleSet.Recovery
import SieveRules.RuleSet.Script
import SieveRules.RuleSet.Warning
import SieveRules.Store
/-!
The commands: print the script of a filter, recover a filter from a script and perhaps store it,
and print advice. What was printed before a failure stays printed.
-/

namespace SieveRules

inductive Failure where
  | unreadable (path : String) (cause : FileError)
  | unwritable (path : String) (cause : FileError)
  | noRules (path : String) (cause : ScriptError)
  | store (error : StoreError)
  deriving DecidableEq, Repr

namespace Failure

def message : Failure → String
  | unreadable path _ => "Cannot read " ++ path
  | unwritable path _ => "Cannot write " ++ path
  | noRules path _ => "Cannot convert " ++ path ++ " to rules"
  | store error => error.message

def cause? : Failure → Option String
  | unreadable _ cause | unwritable _ cause => some cause.message
  | noRules _ cause => some cause.message
  | store (.access _ cause) => some cause.message
  | store .noDirectory => none

def setIn (text : String) : String :=
  .ofList ("    ".toList ++ text.toList.flatMap fun c =>
    if c = '\n' then "\n    ".toList else [c])

def report (failure : Failure) : String :=
  "Error: " ++ failure.message ++ "\n" ++
    match failure.cause? with
    | some cause => "\nCaused by:\n" ++ setIn cause ++ "\n"
    | none => ""

end Failure

structure Progress where
  output : String
  events : List Event
  source : IdSource

structure Outcome where
  code : UInt32
  output : String
  report : String
  events : List Event
  deriving Repr

namespace CommandLine

variable {m : Type → Type} [Monad m]

abbrev Run (m : Type → Type) := ExceptT Failure (StateT Progress m)

def attempt {ε α : Type} (action : ExceptT ε m α) (failure : ε → Failure) : Run m α :=
  ExceptT.mk do
    let result ← (action.run : m (Except ε α))
    return result.mapError failure

def print (text : String) : Run m Unit :=
  modify fun progress => { progress with output := progress.output ++ text }

def tell (events : List Event) : Run m Unit :=
  modify fun progress => { progress with events := progress.events ++ events }

def keep (read : (RuleSet × IdSource) × List Event) : Run m RuleSet := do
  let ((set, source), events) := read
  modify fun progress => { progress with source }
  tell events
  return set

def stored (files : Files m) (environment : Environment) : Run m (String × RuleSet) := do
  let path ← attempt (ExceptT.mk (pure environment.storePath)) .store
  let read ← attempt (files.loadRuleSet path (← get).source) .store
  return (path, ← keep read)

/-- The filter in a file, or the stored one. -/
def model (files : Files m) (environment : Environment) : Option String → Run m RuleSet
  | some path => do
    let text ← attempt (files.loadText path) (.unreadable path)
    keep (RuleSet.decode text (← get).source)
  | none => do
    let (_, set) ← stored files environment
    return set

def script (files : Files m) (path : String) : Run m RuleSet := do
  let text ← attempt (files.loadText path) (.unreadable path)
  match RuleSet.parse text (← get).source with
  | (.ok recovered, events) => keep (recovered, events)
  | (.error cause, events) =>
    tell events
    throw (.noRules path cause)

def store (files : Files m) (environment : Environment) (parsed : RuleSet) : Run m Unit := do
  let (path, old) ← stored files environment
  let (new, source) := old.adopt parsed (← get).source
  modify fun progress => { progress with source }
  attempt (files.saveRuleSet path new) .store

def perform (files : Files m) (environment : Environment) : Invocation → Run m Unit
  | .generate source output => do
    let set ← model files environment source
    match output with
    | some path => attempt (files.saveText path set.generate) (.unwritable path)
    | none => print set.generate
  | .parse path save => do
    let parsed ← script files path
    print (parsed.encode ++ "\n")
    if save then store files environment parsed
  | .validate source => do
    let set ← model files environment source
    print (.join (set.validate.map (·.message ++ "\n")))
  | .help => print Invocation.usage
  | .version => print "sievekit\n"

/-- Runs the command that arguments ask for. Arguments that make no sense end with code 2, and a
failure with code 1. -/
def run (files : Files m) (environment : Environment) (source : IdSource)
    (arguments : List String) : m (Outcome × IdSource) := do
  match Invocation.ofArguments arguments with
  | none => return (⟨2, "", Invocation.usage, []⟩, source)
  | some invocation =>
    let (result, progress) ← (perform files environment invocation).run ⟨"", [], source⟩
    let outcome := match result with
      | .ok () => ⟨0, progress.output, "", progress.events⟩
      | .error failure => ⟨1, progress.output, failure.report, progress.events⟩
    return (outcome, progress.source)

end CommandLine

end SieveRules
