import SieveRules.RuleSet
/-!
Advice on a filter. Warnings stand in the order of a scan: rules first, each with its conditions
before its actions, then the extensions that are used but not switched on.
-/

namespace SieveRules

/-- Places count from one, among all rules, active or not. -/
inductive Warning where
  | noActiveRules
  | noConditions (rule : Nat)
  | emptyHeaderName (rule condition : Nat)
  | emptyValue (rule condition : Nat)
  | noActions (rule : Nat)
  | emptyMailbox (rule action : Nat)
  | emptyRedirectAddress (rule action : Nat)
  | actionNotEnabled (kind : ActionKind)
  | testNotEnabled (kind : ConditionKind)
  deriving DecidableEq, Repr

namespace Warning

def place (rule : Nat) (what : String) (index : Nat) : String :=
  "Rule " ++ toString rule ++ ", " ++ what ++ " " ++ toString index

def notEnabled (word what : String) : String :=
  "Script uses '" ++ word ++ "' " ++ what ++ " but '" ++ word ++ "' extension is not enabled"

def message : Warning → String
  | noActiveRules => "No active rules - script will have no effect"
  | noConditions rule => "Rule " ++ toString rule ++ " has no conditions"
  | emptyHeaderName rule condition => place rule "condition" condition ++ " has an empty header name"
  | emptyValue rule condition => place rule "condition" condition ++ " has an empty value"
  | noActions rule => "Rule " ++ toString rule ++ " has no actions"
  | emptyMailbox rule action => place rule "action" action ++ " has an empty mailbox name"
  | emptyRedirectAddress rule action =>
    place rule "action" action ++ " has an empty redirect address"
  | actionNotEnabled kind => notEnabled kind.word "action"
  | testNotEnabled kind => notEnabled kind.word "test"

end Warning

def Condition.headerAndKeys? : Condition → Option (String × List String)
  | header _ _ name keys | address _ _ _ name keys => some (name, keys)
  | _ => none

def Condition.warnings (rule index : Nat) (condition : Condition) : List Warning :=
  match condition.headerAndKeys? with
  | some (name, keys) =>
    (if Text.isVacant name then [.emptyHeaderName rule index] else []) ++
      (if (keys.head?.getD "") = "" then [.emptyValue rule index] else [])
  | none => []

def Action.warnings (rule index : Nat) : Action → List Warning
  | fileinto mailbox .. => if Text.isVacant mailbox then [.emptyMailbox rule index] else []
  | redirect address .. => if Text.isVacant address then [.emptyRedirectAddress rule index] else []
  | _ => []

/-- What there is to say about the items of a list, whose places count from `first`. -/
def warningsFrom {α : Type} (warnings : Nat → α → List Warning) (first : Nat) :
    List α → List Warning
  | [] => []
  | item :: rest => warnings first item ++ warningsFrom warnings (first + 1) rest

def Policy.warnings (index : Nat) (policy : Policy) : List Warning :=
  (if policy.conditions.isEmpty then [.noConditions index] else []) ++
    warningsFrom (Condition.warnings index) 1 policy.conditions ++
    (if policy.actions.isEmpty then [.noActions index] else []) ++
    warningsFrom (Action.warnings index) 1 policy.actions

namespace RuleSet

def usesAction (set : RuleSet) (kind : ActionKind) : Bool :=
  set.activeRules.any fun rule => rule.actions.any (·.kind = kind)

def usesTest (set : RuleSet) (kind : ConditionKind) : Bool :=
  set.activeRules.any fun rule => rule.conditions.any (·.kind = kind)

def allows (set : RuleSet) (capability : Option Capability) : Bool :=
  capability.all set.extensions.isEnabled

def checkedActions : List ActionKind := [.fileinto, .reject, .vacation]

def checkedTests : List ConditionKind := [.envelope, .body]

def validate (set : RuleSet) : List Warning :=
  (if !set.rules.isEmpty && !set.hasActiveRules then [.noActiveRules] else []) ++
    warningsFrom (fun index rule => if rule.active then rule.toPolicy.warnings index else []) 1
      set.rules ++
    (checkedActions.filter fun kind => set.usesAction kind && !set.allows kind.capability?).map
      .actionNotEnabled ++
    (checkedTests.filter fun kind => set.usesTest kind && !set.allows kind.capability?).map
      .testNotEnabled

end RuleSet

end SieveRules
