import SieveRules.Rule.Action
/-!
A rule is a policy under an identifier. The policy says what the rule does; the identifier only
tells rules apart, and comes from a source of names when a rule has none of its own.
-/

namespace SieveRules

/-- What a rule does: its actions, for messages that meet its conditions. -/
structure Policy where
  active : Bool
  combinator : Combinator
  conditions : List Condition
  actions : List Action
  deriving DecidableEq, Repr

def Policy.initial : Policy :=
  ⟨true, .anyof, [.initial], [.initial]⟩

structure RuleId where
  text : String
  deriving DecidableEq, Repr

structure Rule extends Policy where
  id : RuleId
  deriving DecidableEq, Repr

def Policy.named (policy : Policy) (id : RuleId) : Rule :=
  ⟨policy, id⟩

namespace RuleId

def hexDigits : Nat → Nat → List Char
  | 0, _ => []
  | width + 1, n => hexDigits width (n / 16) ++ [Nat.digitChar (n % 16)]

/-- The name with a number, which takes 128 bits. -/
def numbered (n : Nat) : RuleId :=
  ⟨"id_" ++ .ofList (hexDigits 32 n)⟩

end RuleId

/-- A source of rule names. It gives out `name next` and moves on. -/
structure IdSource where
  name : Nat → RuleId
  next : Nat

namespace IdSource

def startingAt (n : Nat) : IdSource :=
  ⟨fun k => .numbered (n + k), 0⟩

def mint (source : IdSource) : RuleId × IdSource :=
  (source.name source.next, { source with next := source.next + 1 })

def nameAll (source : IdSource) : List Policy → List Rule × IdSource
  | [] => ([], source)
  | policy :: rest =>
    let (id, source) := source.mint
    let (rules, source) := source.nameAll rest
    (policy.named id :: rules, source)

theorem nameAll_policies (source : IdSource) (policies : List Policy) :
    (source.nameAll policies).1.map Rule.toPolicy = policies := by
  induction policies generalizing source with
  | nil => rfl
  | cons policy rest ih => simp [nameAll, mint, Policy.named, ih]

end IdSource

end SieveRules
