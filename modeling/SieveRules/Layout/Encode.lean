import SieveRules.Json.Printer
import SieveRules.RuleSet
/-!
The stored layout of a filter. A condition names its type among its fields; an action holds its
parameters apart from its type, and optional parameters that are not given are left out.
-/

namespace SieveRules

def Json.ofWord {α : Type} [Vocabulary α] (a : α) : Json :=
  .ofString (Vocabulary.word a)

/-- A member that is left out where there is no value. -/
def optionalMember {α : Type} (name : String) (value : Option α) (encode : α → Json) :
    List (String × Json) :=
  (value.map fun a => (name, encode a)).toList

namespace Condition

def members : Condition → List (String × Json)
  | header comparator matchType name keys =>
    [("comparator", .ofString comparator), ("matchType", .ofWord matchType),
      ("header", .ofString name), ("keys", .ofStrings keys)]
  | address comparator matchType part name keys | envelope comparator matchType part name keys =>
    [("comparator", .ofString comparator), ("matchType", .ofWord matchType),
      ("addressPart", .ofWord part), ("header", .ofString name), ("keys", .ofStrings keys)]
  | size operator limit => [("operator", .ofWord operator), ("size", .ofString limit)]
  | body comparator matchType transform keys =>
    [("comparator", .ofString comparator), ("matchType", .ofWord matchType),
      ("transform", .ofWord transform), ("keys", .ofStrings keys)]
  | present names => [("header", .ofStrings names)]
  | always | never => []

def toJson (condition : Condition) : Json :=
  .ofMembers (("type", .ofWord condition.kind) :: condition.members)

end Condition

namespace Action

def parameters? : Action → Option (List (String × Json))
  | keep | discard | stop => none
  | fileinto mailbox create copy flags => some
    ([("mailbox", .ofString mailbox), ("create", .bool create), ("copy", .bool copy)] ++
      if flags.isEmpty then [] else [("flags", .ofStrings flags)])
  | redirect address copy => some [("address", .ofString address), ("copy", .bool copy)]
  | reject reason => some [("reason", .ofString reason)]
  | addheader name value last => some
    [("name", .ofString name), ("value", .ofString value), ("last", .bool last)]
  | deleteheader name value index last matchType comparator => some
    (("name", .ofString name) :: optionalMember "value" value .ofString ++
      optionalMember "index" index (fun n => .ofNat n.toNat) ++
      ("last", .bool last) :: optionalMember "matchType" matchType .ofWord ++
      optionalMember "comparator" comparator .ofString)
  | vacation days subject message => some
    (optionalMember "days" days (fun n => .ofNat n.toNat) ++
      optionalMember "subject" subject .ofString ++ [("message", .ofString message)])

def toJson (action : Action) : Json :=
  .ofMembers (("type", .ofWord action.kind) ::
    optionalMember "parameters" action.parameters? .ofMembers)

end Action

def Rule.toJson (rule : Rule) : Json :=
  .ofMembers [("id", .ofString rule.id.text), ("active", .bool rule.active),
    ("combinator", .ofWord rule.combinator),
    ("conditions", .array (rule.conditions.map Condition.toJson)),
    ("actions", .array (rule.actions.map Action.toJson))]

def CapabilitySet.toJson (set : CapabilitySet) : Json :=
  .ofMembers (set.flags.entries.map fun (name, on) => (name, .bool on))

namespace RuleSet

def toJson (set : RuleSet) : Json :=
  .ofMembers [("rules", .array (set.rules.map Rule.toJson)),
    ("extensions", set.extensions.toJson)]

def encode (set : RuleSet) : String :=
  set.toJson.pretty

end RuleSet

end SieveRules
