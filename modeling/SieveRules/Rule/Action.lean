import SieveRules.Rule.Condition
/-!
What a rule does with a message it matches.
-/

namespace SieveRules

inductive Action where
  | keep
  | fileinto (mailbox : String) (create copy : Bool) (flags : List String)
  | redirect (address : String) (copy : Bool)
  | discard
  | reject (reason : String)
  | addheader (name value : String) (last : Bool)
  | deleteheader (name : String) (value : Option String) (index : Option UInt32) (last : Bool)
      (matchType : Option MatchType) (comparator : Option String)
  | stop
  | vacation (days : Option UInt32) (subject : Option String) (message : String)
  deriving DecidableEq, Repr

namespace Action

def initial : Action :=
  fileinto "INBOX.Filtered" false false []

def kind : Action → ActionKind
  | keep => .keep
  | fileinto .. => .fileinto
  | redirect .. => .redirect
  | discard => .discard
  | reject .. => .reject
  | addheader .. => .addheader
  | deleteheader .. => .deleteheader
  | stop => .stop
  | vacation .. => .vacation

/-- The comparator of an action that takes one, where it names it. -/
def comparator? : Action → Option String
  | deleteheader _ _ _ _ _ comparator => comparator
  | _ => none

end Action

end SieveRules
