import SieveRules.Event
import SieveRules.Layout.Decode
import SieveRules.RuleSet.Edit
/-!
Reading a stored filter for what can be used of it. Whatever the text, there is a filter; all that
is passed over is told.
-/

namespace SieveRules

namespace Json

def readSettled? (text : String) : Option Json :=
  ((read? text).filter (·.isReadable 0)).map settle

end Json

namespace StoredRule

def decodeItems (index : Nat) : List Json → List StoredRule × List Event
  | [] => ([], [])
  | item :: rest =>
    let (rules, events) := decodeItems (index + 1) rest
    match decode? 2 item with
    | some rule => (rule :: rules, events)
    | none => (rules, .ruleDropped index :: events)

/-- The rules of a stored filter. Null counts as none. -/
def decodeField : Option Json → List StoredRule × List Event
  | none | some .null => ([], [])
  | some (.array items) => decodeItems 0 items
  | some _ => ([], [.rulesNotAList])

end StoredRule

namespace CapabilitySet

def decodeFlags : List (String × Json) → List (String × Bool) × List Event
  | [] => ([], [])
  | (name, value) :: rest =>
    let (flags, events) := decodeFlags rest
    match value.bool? with
    | some on => ((name, on) :: flags, events)
    | none => (flags, .flagIgnored name value :: events)

def decodeField : Option Json → CapabilitySet × List Event
  | none | some .null => (.empty, [])
  | some (.object members) =>
    let (flags, events) := decodeFlags (((Json.object members).members?).getD [])
    (⟨.ofList flags⟩, events)
  | some _ => (.empty, [.extensionsNotAnObject])

end CapabilitySet

def StoredRuleSet.recover : Option Json → StoredRuleSet × List Event
  | none => (⟨[], .empty⟩, [.notJson])
  | some (.object members) =>
    let members := ((Json.object members).members?).getD []
    let (rules, dropped) := StoredRule.decodeField (members.lookup "rules")
    let (extensions, ignored) := CapabilitySet.decodeField (members.lookup "extensions")
    (⟨rules, extensions⟩, dropped ++ ignored)
  | some _ => (⟨[], .empty⟩, [.notAnObject])

namespace RuleSet

/-- The filter in a stored text, as far as it can be used, each rule with a name of its own. -/
def decode (text : String) (source : IdSource) : (RuleSet × IdSource) × List Event :=
  let (stored, events) := StoredRuleSet.recover (Json.readSettled? text)
  let (set, source) := stored.named source
  let (count, set, source) := set.ensureUniqueIds source
  ((set, source), events ++ if count = 0 then [] else [.idsRenamed count])

end RuleSet

end SieveRules
