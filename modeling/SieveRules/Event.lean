import SieveRules.Json.Printer
/-!
What is worth telling about a reading: everything that could not be kept, and why.
-/

namespace SieveRules

inductive ArgumentFault where
  | comparatorWithoutString
  | unsupportedTag (tag : String)
  | unexpectedNumber (digits : String)
  | comparisonInExists
  | notOneHeaderList
  | notOneHeaderName
  | notHeaderAndKeys
  | unexpectedArguments
  deriving DecidableEq, Repr

def ArgumentFault.message : ArgumentFault → String
  | comparatorWithoutString => "':comparator' needs a string"
  | unsupportedTag tag => "unsupported tag '" ++ tag ++ "'"
  | unexpectedNumber digits => "unexpected number " ++ digits
  | comparisonInExists => "takes no match type or comparator"
  | notOneHeaderList => "expects one header list"
  | notOneHeaderName => "expects exactly one header name"
  | notHeaderAndKeys => "expects a header name and a key list"
  | unexpectedArguments => "takes no arguments"

inductive Unrecoverable where
  | test (name : String)
  | testArguments (name : String) (fault : ArgumentFault)
  | missingTest
  | nestedBlock
  deriving DecidableEq, Repr

def Unrecoverable.message : Unrecoverable → String
  | test name => "'" ++ name ++ "' test is not supported"
  | testArguments name fault => "'" ++ name ++ "' test: " ++ fault.message
  | missingTest => "block has no test"
  | nestedBlock => "nested blocks are not supported"

/-- One thing to tell about a reading, or about finding nothing to read. -/
inductive Event where
  | blockSkipped (block : Nat) (reason : Unrecoverable)
  | actionDropped (name : String)
  | commandIgnored (name : String)
  | requireIgnored
  | fileintoArgumentIgnored
  | redirectArgumentIgnored
  | vacationArgumentIgnored
  | vacationOptionIgnored (tag : String)
  | notJson
  | notAnObject
  | rulesNotAList
  | extensionsNotAnObject
  | ruleDropped (index : Nat)
  | flagIgnored (name : String) (value : Json)
  | idsRenamed (count : Nat)
  | nothingStored
  deriving Repr

inductive Level where
  | debug
  | warn
  deriving DecidableEq, Repr

namespace Event

/-- What was lost from a filter is a warning; what a filter never holds is not. -/
def level : Event → Level
  | blockSkipped .. | actionDropped .. | notJson | notAnObject | rulesNotAList
  | extensionsNotAnObject | ruleDropped .. | flagIgnored .. | idsRenamed .. => .warn
  | commandIgnored .. | requireIgnored | fileintoArgumentIgnored | redirectArgumentIgnored
  | vacationArgumentIgnored | vacationOptionIgnored .. | nothingStored => .debug

def message : Event → String
  | blockSkipped .. => "skipping block the rule model cannot represent"
  | actionDropped .. => "dropping action the rule model cannot represent"
  | commandIgnored .. => "ignoring top-level command outside a rule"
  | requireIgnored => "ignoring additional require statement"
  | fileintoArgumentIgnored => "ignoring fileinto argument"
  | redirectArgumentIgnored => "ignoring redirect argument"
  | vacationArgumentIgnored => "ignoring vacation argument"
  | vacationOptionIgnored .. => "ignoring vacation option"
  | notJson => "stored model is not valid JSON, starting empty"
  | notAnObject => "stored model is not a JSON object, starting empty"
  | rulesNotAList => "stored 'rules' is not a list, ignoring it"
  | extensionsNotAnObject => "stored 'extensions' is not an object, ignoring it"
  | ruleDropped .. => "dropping malformed rule"
  | flagIgnored .. => "ignoring non-boolean extension flag"
  | idsRenamed .. => "re-minted duplicate rule ids"
  | nothingStored => "no stored model, using defaults"

def fields : Event → List (String × Json)
  | blockSkipped block reason =>
    [("block", .ofNat block), ("reason", .ofString reason.message)]
  | actionDropped name => [("action", .ofString name)]
  | commandIgnored name => [("command", .ofString name)]
  | vacationOptionIgnored tag => [("tag", .ofString tag)]
  | ruleDropped index => [("index", .ofNat index)]
  | flagIgnored name value =>
    [("extension", .ofString name), ("value", .ofString value.settle.compact)]
  | idsRenamed count => [("count", .ofNat count)]
  | _ => []

end Event

end SieveRules
