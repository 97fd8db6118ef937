import SieveRules.Event
import SieveRules.RuleSet
import SieveRules.Script.Parser
/-!
From a script back to a filter. Every branch of the script becomes a rule or is passed over with its
reason; inside a rule every action is kept or dropped. The names of the rules are given last.
-/

namespace SieveRules

/-- A filter whose rules have no names yet. -/
structure Outline where
  policies : List Policy
  extensions : CapabilitySet
  deriving DecidableEq, Repr

def RuleSet.outline (set : RuleSet) : Outline :=
  ⟨set.policies, set.extensions⟩

def Outline.named (outline : Outline) (source : IdSource) : RuleSet × IdSource :=
  let (rules, source) := source.nameAll outline.policies
  (⟨rules, outline.extensions⟩, source)

/-- An argument that says something on its own, or a tag with the argument that is its value. -/
structure ArgumentUnit where
  head : Argument
  value : Option Argument
  deriving DecidableEq, Repr

namespace Argument

/-- The arguments from left to right, where the tags given take the argument behind them. -/
def units (valued : List String) : List Argument → List ArgumentUnit
  | [] => []
  | [argument] => [⟨argument, none⟩]
  | argument :: value :: rest =>
    match argument with
    | tag name =>
      if name ∈ valued then ⟨argument, some value⟩ :: units valued rest
      else ⟨argument, none⟩ :: units valued (value :: rest)
    | _ => ⟨argument, none⟩ :: units valued (value :: rest)

/-- The natural number, if it is below `2 ^ 32` and has no scale. -/
def word32? : Argument → Option UInt32
  | number digits =>
    let cs := digits.toList
    if !cs.isEmpty && cs.all Text.isDigit && decide (Text.decimal cs < UInt32.size) then
      some (UInt32.ofNat (Text.decimal cs))
    else none
  | _ => none

def string? : Argument → Option String
  | string value => some value
  | _ => none

end Argument

/-- What the arguments of a test say. The last word on a field counts. -/
structure TestArguments where
  matchType : Option MatchType
  comparator : Option String
  part : Option AddressPart
  positional : List (List String)
  deriving DecidableEq, Repr

namespace TestArguments

def empty : TestArguments := ⟨none, none, none, []⟩

/-- Takes one unit in. Only tests of addresses know parts of an address. -/
def add (takesPart : Bool) (arguments : TestArguments) (unit : ArgumentUnit) :
    Except ArgumentFault TestArguments :=
  match unit.head with
  | .tag name =>
    if name = ":comparator" then
      match unit.value with
      | some (.string comparator) => .ok { arguments with comparator := some comparator }
      | _ => .error .comparatorWithoutString
    else
      match (Vocabulary.named? name : Option MatchType) with
      | some matchType => .ok { arguments with matchType := some matchType }
      | none =>
        match takesPart, (Vocabulary.named? name : Option AddressPart) with
        | true, some part => .ok { arguments with part := some part }
        | _, _ => .error (.unsupportedTag name)
  | .number digits => .error (.unexpectedNumber digits)
  | .string value => .ok { arguments with positional := arguments.positional ++ [[value]] }
  | .stringList items => .ok { arguments with positional := arguments.positional ++ [items] }

def collect (takesPart : Bool) (arguments : List Argument) : Except ArgumentFault TestArguments :=
  (Argument.units [":comparator"] arguments).foldlM (add takesPart) empty

def headerAndKeys (arguments : TestArguments) : Except ArgumentFault (String × List String) :=
  match arguments.positional with
  | [[name], keys] => .ok (name, keys)
  | [_, _] => .error .notOneHeaderName
  | _ => .error .notHeaderAndKeys

def comparatorOrDefault (arguments : TestArguments) : String :=
  arguments.comparator.getD defaultComparator

end TestArguments

namespace Test

def conditionOf (arguments : List Argument) :
    ConditionKind → Except ArgumentFault (Option Condition)
  | .header => do
    let found ← TestArguments.collect false arguments
    let (name, keys) ← found.headerAndKeys
    return some (.header found.comparatorOrDefault (found.matchType.getD .is) name keys)
  | .address => do
    let found ← TestArguments.collect true arguments
    let (name, keys) ← found.headerAndKeys
    return some (.address found.comparatorOrDefault (found.matchType.getD .is)
      (found.part.getD .all) name keys)
  | .present => do
    let found ← TestArguments.collect false arguments
    if found.matchType.isSome || found.comparator.isSome then throw .comparisonInExists
    match found.positional with
    | [names] => return some (.present names)
    | _ => throw .notOneHeaderList
  | .always => if arguments.isEmpty then return some .always else throw .unexpectedArguments
  | .never => if arguments.isEmpty then return some .never else throw .unexpectedArguments
  | .envelope | .size | .body => return none

/-- The condition a test stands for. A test that combines others stands for none. -/
def toCondition (test : Test) : Except Unrecoverable Condition :=
  match Vocabulary.named? test.name with
  | none => .error (.test test.name)
  | some kind =>
    if !test.tests.isEmpty then .error (.test test.name)
    else
      match conditionOf test.arguments kind with
      | .error fault => .error (.testArguments test.name fault)
      | .ok none => .error (.test test.name)
      | .ok (some condition) => .ok condition

def toConditions (test : Test) : Except Unrecoverable (Combinator × List Condition) :=
  match Vocabulary.named? test.name with
  | some combinator => (test.tests.mapM toCondition).map fun conditions => (combinator, conditions)
  | none => test.toCondition.map fun condition => (.allof, [condition])

end Test

def foldUnits {α : Type} (step : α → ArgumentUnit → α × Option Event) (state : α) :
    List ArgumentUnit → α × List Event
  | [] => (state, [])
  | unit :: rest =>
    let (state, event) := step state unit
    let (result, events) := foldUnits step state rest
    (result, event.toList ++ events)

structure FileintoArguments where
  mailbox : String
  create : Bool
  copy : Bool
  flags : List String
  deriving DecidableEq, Repr

def FileintoArguments.add (found : FileintoArguments) (unit : ArgumentUnit) :
    FileintoArguments × Option Event :=
  match unit.head with
  | .tag ":create" => ({ found with create := true }, none)
  | .tag ":copy" => ({ found with copy := true }, none)
  | .tag ":flags" => ({ found with flags := (unit.value.bind Argument.strings?).getD [] }, none)
  | .string mailbox => ({ found with mailbox }, none)
  | _ => (found, some .fileintoArgumentIgnored)

structure RedirectArguments where
  address : String
  copy : Bool
  deriving DecidableEq, Repr

def RedirectArguments.add (found : RedirectArguments) (unit : ArgumentUnit) :
    RedirectArguments × Option Event :=
  match unit.head with
  | .tag ":copy" => ({ found with copy := true }, none)
  | .string address => ({ found with address }, none)
  | _ => (found, some .redirectArgumentIgnored)

structure VacationArguments where
  days : Option UInt32
  subject : Option String
  message : String
  deriving DecidableEq, Repr

namespace VacationArguments

/-- Options with a value that a rule does not keep. -/
def foreign : List String := [":from", ":addresses", ":handle", ":seconds", ":fcc"]

def add (found : VacationArguments) (unit : ArgumentUnit) : VacationArguments × Option Event :=
  match unit.head with
  | .tag name =>
    if name = ":days" then ({ found with days := unit.value.bind Argument.word32? }, none)
    else if name = ":subject" then
      ({ found with subject := unit.value.bind Argument.string? }, none)
    else if name ∈ foreign then (found, some (.vacationOptionIgnored name))
    else (found, some .vacationArgumentIgnored)
  | .string message => ({ found with message }, none)
  | _ => (found, some .vacationArgumentIgnored)

end VacationArguments

namespace Command

def actionOf (arguments : List Argument) : ActionKind → Option Action × List Event
  | .keep => (some .keep, [])
  | .discard => (some .discard, [])
  | .stop => (some .stop, [])
  | .fileinto =>
    let (found, events) :=
      foldUnits FileintoArguments.add ⟨"", false, false, []⟩ (Argument.units [":flags"] arguments)
    (some (.fileinto found.mailbox found.create found.copy found.flags), events)
  | .redirect =>
    let (found, events) := foldUnits RedirectArguments.add ⟨"", false⟩ (Argument.units [] arguments)
    (some (.redirect found.address found.copy), events)
  | .reject => (some (.reject ((arguments.findSome? Argument.string?).getD "")), [])
  | .vacation =>
    let (found, events) := foldUnits VacationArguments.add ⟨none, none, ""⟩
      (Argument.units (":days" :: ":subject" :: VacationArguments.foreign) arguments)
    (some (.vacation found.days found.subject found.message), events)
  | .addheader | .deleteheader => (none, [])

/-- The action a command stands for. One that stands for none is dropped. -/
def toAction (command : Command) : Option Action × List Event :=
  match (Vocabulary.named? command.name).map (actionOf command.arguments) with
  | some (some action, events) => (some action, events)
  | _ => (none, [.actionDropped command.name])

def isBranch (command : Command) : Bool :=
  command.name ∈ ["if", "elsif", "else"]

/-- The actions of a block. There is no rule for a block inside a block. -/
def toActions : List Command → Except Unrecoverable (List Action) × List Event
  | [] => (.ok [], [])
  | command :: rest =>
    if command.block.isSome || command.isBranch then (.error .nestedBlock, [])
    else
      let (action, events) := command.toAction
      let (actions, later) := toActions rest
      (actions.map (action.toList ++ ·), events ++ later)

/-- What a branch tests. A branch without a condition always applies. -/
def branchConditions (command : Command) : Except Unrecoverable (Combinator × List Condition) :=
  if command.name = "else" then .ok (.allof, [.always])
  else
    match command.tests with
    | [test] => test.toConditions
    | _ => .error .missingTest

def toPolicy (command : Command) : Except Unrecoverable Policy × List Event :=
  match command.branchConditions with
  | .error reason => (.error reason, [])
  | .ok (combinator, conditions) =>
    let (actions, events) := toActions (command.block.getD [])
    (actions.map fun actions => ⟨true, combinator, conditions, actions⟩, events)

def requiredNames (command : Command) : List String :=
  (command.arguments.filterMap Argument.strings?).flatten

end Command

/-- Switches on what a `require` names. Every comparator belongs to one extension. -/
def CapabilitySet.require (set : CapabilitySet) (name : String) : CapabilitySet :=
  if "comparator-".toList.isPrefixOf name.toList then set.set .comparator true
  else set.setName name true

namespace Script

/-- The extensions of a script are those of its first `require`. -/
def extensions (script : Script) : CapabilitySet :=
  match script.commands.find? (·.name = "require") with
  | none => .empty
  | some command => command.requiredNames.foldl .require .empty

/-- The policies of the branches in order, and what there is to tell. Says whether a `require` and
how many branches came before. -/
def recoverFrom (required : Bool) (block : Nat) : List Command → List Policy × List Event
  | [] => ([], [])
  | command :: rest =>
    if command.name = "require" then
      let (policies, events) := recoverFrom true block rest
      (policies, (if required then [.requireIgnored] else []) ++ events)
    else if command.isBranch then
      let (outcome, told) := command.toPolicy
      let (policies, events) := recoverFrom required (block + 1) rest
      match outcome with
      | .ok policy => (policy :: policies, told ++ events)
      | .error reason => (policies, told ++ .blockSkipped (block + 1) reason :: events)
    else
      let (policies, events) := recoverFrom required block rest
      (policies, .commandIgnored command.name :: events)

/-- The filter a script holds. A script without branches holds none. -/
def outline (script : Script) : Except ScriptError Outline × List Event :=
  let (policies, events) := recoverFrom false 0 script.commands
  if script.commands.any Command.isBranch then (.ok ⟨policies, script.extensions⟩, events)
  else (.error .noBlocks, events)

end Script

def Outline.parse (text : String) : Except ScriptError Outline × List Event :=
  match Script.parse text with
  | .error e => (.error e, [])
  | .ok script => script.outline

def RuleSet.parse (text : String) (source : IdSource) :
    Except ScriptError (RuleSet × IdSource) × List Event :=
  let (outline, events) := Outline.parse text
  (outline.map (·.named source), events)

end SieveRules
