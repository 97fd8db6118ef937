import SieveRules.CapabilitySet
import SieveRules.Rule
/-!
A filter: rules in order, and the extensions they may use.
-/

namespace SieveRules

structure RuleSet where
  rules : List Rule
  extensions : CapabilitySet
  deriving DecidableEq, Repr

namespace RuleSet

def empty : RuleSet := ⟨[], .empty⟩

def initial : RuleSet := ⟨[], .standard⟩

def activeRules (set : RuleSet) : List Rule :=
  set.rules.filter (·.active)

def hasActiveRules (set : RuleSet) : Bool :=
  set.rules.any (·.active)

def ids (set : RuleSet) : List RuleId :=
  set.rules.map (·.id)

/-- The policies of the rules: the set without the names. -/
def policies (set : RuleSet) : List Policy :=
  set.rules.map Rule.toPolicy

end RuleSet

end SieveRules
