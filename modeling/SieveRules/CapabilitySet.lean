import SieveRules.Dictionary
import SieveRules.Vocabulary
/-!
Which extensions are switched on, by name. Names that are no known extension are kept, but only
known ones are ever required.
-/

namespace SieveRules

structure CapabilitySet where
  flags : Dictionary Bool
  deriving DecidableEq, Repr

namespace CapabilitySet

def empty : CapabilitySet := ⟨∅⟩

def isEnabledName (set : CapabilitySet) (name : String) : Bool :=
  (set.flags.get? name).getD false

def isEnabled (set : CapabilitySet) (capability : Capability) : Bool :=
  set.isEnabledName capability.word

def setName (set : CapabilitySet) (name : String) (on : Bool) : CapabilitySet :=
  ⟨set.flags.insert name on⟩

def set (set : CapabilitySet) (capability : Capability) (on : Bool) : CapabilitySet :=
  set.setName capability.word on

def toggle (set : CapabilitySet) (capability : Capability) : CapabilitySet :=
  set.set capability (!set.isEnabled capability)

/-- Every known extension is listed, and `fileinto` alone is on. -/
def standard : CapabilitySet :=
  Capability.all.foldl (fun set capability => set.set capability (capability = .fileinto)) empty

def enabled (set : CapabilitySet) : List Capability :=
  Capability.all.filter set.isEnabled

def mergeEnabled (set other : CapabilitySet) : CapabilitySet :=
  other.flags.entries.foldl (fun set e => if e.2 then set.setName e.1 true else set) set

theorem isEnabledName_setName (set : CapabilitySet) (name other : String) (on : Bool) :
    (set.setName name on).isEnabledName other =
      if other = name then on else set.isEnabledName other := by
  simp only [isEnabledName, setName, Dictionary.get?_insert]
  split <;> rfl

end CapabilitySet

end SieveRules
