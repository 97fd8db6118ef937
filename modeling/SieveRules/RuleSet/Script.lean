import SieveRules.RuleSet
import SieveRules.Script.Printer
/-!
The script of a filter. Every active rule is a branch of one chain of conditions, in order, behind
the extensions the script requires. Where a field is empty its default is written.
-/

namespace SieveRules

def orDefault (s default : String) : String :=
  if s = "" then default else s

/-- A list of keys. An empty one is written as one empty key. -/
def keysArgument (keys : List String) : Argument :=
  .stringList (if keys.isEmpty then [""] else keys)

/-- A comparator is named where it is not the one that goes without saying. -/
def comparatorArguments (name : String) : List Argument :=
  if isExplicitComparator name then [.tag ":comparator", .string name] else []

def optionArguments (tag : String) : Option Argument → List Argument
  | none => []
  | some value => [.tag tag, value]

def flagArguments (tag : String) (on : Bool) : List Argument :=
  if on then [.tag tag] else []

def nonempty? (s : Option String) : Option String :=
  s.filter (· ≠ "")

def Condition.toArguments : Condition → List Argument
  | header comparator matchType name keys =>
    .tag matchType.word :: comparatorArguments comparator ++ [.string name, keysArgument keys]
  | address comparator matchType part name keys
  | envelope comparator matchType part name keys =>
    .tag matchType.word :: .tag part.word :: comparatorArguments comparator ++
      [.string name, keysArgument keys]
  | size operator limit => [.tag operator.word, .number (orDefault limit "0")]
  | body comparator matchType transform keys =>
    .tag matchType.word :: .tag transform.word :: comparatorArguments comparator ++
      [keysArgument keys]
  | present [] => [.string ""]
  | present [name] => [.string name]
  | present names => [.stringList names]
  | always | never => []

def Condition.toTest (condition : Condition) : Test :=
  ⟨condition.kind.word, condition.toArguments, []⟩

def Action.toArguments : Action → List Argument
  | keep | discard | stop => []
  | fileinto mailbox create copy flags =>
    flagArguments ":create" create ++
      (if flags.isEmpty then [] else [.tag ":flags", .stringList flags]) ++
      flagArguments ":copy" copy ++ [.string (orDefault mailbox "INBOX")]
  | redirect address copy => flagArguments ":copy" copy ++ [.string address]
  | reject reason => [.string reason]
  | addheader name value last => flagArguments ":last" last ++ [.string name, .string value]
  | deleteheader name value index last matchType comparator =>
    optionArguments ":index" (index.map fun n => .number (toString n.toNat)) ++
      flagArguments ":last" last ++
      (matchType.map fun m => Argument.tag m.word).toList ++
      optionArguments ":comparator" ((comparator.filter isExplicitComparator).map .string) ++
      .string name :: ((nonempty? value).map Argument.string).toList
  | vacation days subject message =>
    optionArguments ":days" ((days.filter (· ≠ 0)).map fun n => .number (toString n.toNat)) ++
      optionArguments ":subject" ((nonempty? subject).map .string) ++ [.string message]

def Action.toCommand (action : Action) : Command :=
  ⟨action.kind.word, action.toArguments, [], none⟩

namespace Policy

/-- The test of a rule. No condition always holds, and one needs no combinator. -/
def toTest (policy : Policy) : Test :=
  match policy.conditions with
  | [] => Condition.always.toTest
  | [condition] => condition.toTest
  | conditions => ⟨policy.combinator.word, [], conditions.map Condition.toTest⟩

def toCommand (keyword : String) (policy : Policy) : Command :=
  ⟨keyword, [], [policy.toTest], some (policy.actions.map Action.toCommand)⟩

/-- The branches of rules, of which the first one that applies is taken. -/
def chain : List Policy → List Command
  | [] => []
  | first :: rest => first.toCommand "if" :: rest.map (toCommand "elsif")

def comparators (policy : Policy) : List String :=
  (policy.conditions.filterMap Condition.comparator? ++
    policy.actions.filterMap Action.comparator?).filter isExplicitComparator

end Policy

namespace RuleSet

def usedComparators (set : RuleSet) : List String :=
  (set.activeRules.flatMap fun rule => rule.toPolicy.comparators).eraseDups

/-- What a script has to require for an extension. Comparators are required one by one. -/
def requirement (set : RuleSet) : Capability → List String
  | .comparator => (defaultComparator :: set.usedComparators).map ("comparator-" ++ ·)
  | capability => [capability.word]

def requires (set : RuleSet) : List String :=
  set.extensions.enabled.flatMap set.requirement

def requireCommands (set : RuleSet) : List Command :=
  if set.requires.isEmpty then []
  else [⟨"require", [.stringList set.requires], [], none⟩]

def toScript (set : RuleSet) : Script :=
  ⟨set.requireCommands ++ Policy.chain (set.activeRules.map Rule.toPolicy)⟩

def generate (set : RuleSet) : String :=
  set.toScript.render

end RuleSet

end SieveRules
