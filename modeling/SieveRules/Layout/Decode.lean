import SieveRules.Json.Reader
import SieveRules.RuleSet
/-!
Reading the stored layout, strictly: a missing field has its default, an unknown one says nothing,
and anything else that is not as the layout has it refuses the whole. A record may also be written
as the array of its fields in their order.

A value is read in place or from a copy. A copy is made of what cannot be understood before the
type is known; it has to be readable in whole, and in it an empty object counts as no value too.
-/

namespace SieveRules

namespace Json

def members? : Json → Option (List (String × Json))
  | object members => members.mapM fun (name, value) => name.map fun name => (name, value)
  | _ => none

/-- The members that are fields, none of which may be repeated. -/
def knownFields? (fields : List String) (members : List (String × Json)) :
    Option (List (String × Json)) :=
  let known := members.filter fun m => m.1 ∈ fields
  if (known.map Prod.fst).Nodup then some known else none

/-- The fields of a record: an object, or an array of the first fields in their order. -/
def record? (fields : List String) : Json → Option (List (String × Json))
  | array items => if items.length ≤ fields.length then some (fields.zip items) else none
  | j => j.members?.bind (knownFields? fields)

def string? : Json → Option String
  | string value => value
  | _ => none

def bool? : Json → Option Bool
  | bool value => some value
  | _ => none

def word32? : Json → Option UInt32
  | number value => (value.nat?.filter (· < UInt32.size)).map UInt32.ofNat
  | _ => none

def list? {α : Type} (item : Json → Option α) : Json → Option (List α)
  | array items => items.mapM item
  | _ => none

def strings? : Json → Option (List String) :=
  list? string?

/-- A list of strings, or one string for a list of one. -/
def oneOrMany? : Json → Option (List String)
  | string value => value.map fun s => [s]
  | j => j.strings?

def optional? {α : Type} (value : Json → Option α) : Json → Option (Option α)
  | null => some none
  | j => (value j).map some

/-- How a value came here. -/
inductive Access where
  | inPlace
  | copied
  deriving DecidableEq, Repr

def isUnit (access : Access) : Json → Bool
  | null => true
  | object [] => access = .copied
  | _ => false

/-- The value of a word: a string, or an object with the word for its one name and no value. -/
def word? {α : Type} [Vocabulary α] (access : Access) : Json → Option α
  | string value => value.bind Vocabulary.exactly?
  | object [(name, value)] => if value.isUnit access then name.bind Vocabulary.exactly? else none
  | _ => none

end Json

def fieldOr {α : Type} (record : List (String × Json)) (name : String) (default : α)
    (value : Json → Option α) : Option α :=
  match record.lookup name with
  | none => some default
  | some j => value j

namespace Condition

def fields : ConditionKind → List String
  | .header => ["comparator", "matchType", "header", "keys"]
  | .address | .envelope => ["comparator", "matchType", "addressPart", "header", "keys"]
  | .size => ["operator", "size"]
  | .body => ["comparator", "matchType", "transform", "keys"]
  | .present => ["header"]
  | .always | .never => []

/-- In an envelope the header is also called `part`. -/
def rename (kind : ConditionKind) (members : List (String × Json)) : List (String × Json) :=
  if kind = .envelope then
    members.map fun (name, value) => (if name = "part" then "header" else name, value)
  else members

/-- The condition that a record makes. All of it is read from a copy. -/
def ofRecord? (kind : ConditionKind) (record : List (String × Json)) : Option Condition := do
  let comparator ← fieldOr record "comparator" defaultComparator Json.string?
  let matchType ← fieldOr record "matchType" .is (Json.word? .copied)
  let keys ← fieldOr record "keys" [] Json.strings?
  match kind with
  | .header =>
    let name ← fieldOr record "header" "" Json.string?
    return header comparator matchType name keys
  | .address =>
    let part ← fieldOr record "addressPart" .all (Json.word? .copied)
    let name ← fieldOr record "header" "" Json.string?
    return address comparator matchType part name keys
  | .envelope =>
    let part ← fieldOr record "addressPart" .all (Json.word? .copied)
    let name ← fieldOr record "header" "" Json.string?
    return envelope comparator matchType part name keys
  | .size =>
    let operator ← fieldOr record "operator" .larger (Json.word? .copied)
    let limit ← fieldOr record "size" "" Json.string?
    return size operator limit
  | .body =>
    let transform ← fieldOr record "transform" .text (Json.word? .copied)
    return body comparator matchType transform keys
  | .present =>
    let names ← fieldOr record "header" [] Json.oneOrMany?
    return present names
  | .always => return always
  | .never => return never

def split? : Json → Option (Json × Json)
  | .array (type :: rest) => some (type, .array rest)
  | .object members => do
    let members ← (Json.object members).members?
    match members.filter (·.1 = "type") with
    | [(_, type)] => some (type, .ofMembers (members.filter (·.1 ≠ "type")))
    | _ => none
  | _ => none

def record? (kind : ConditionKind) : Json → Option (List (String × Json))
  | .array items => (Json.array items).record? (fields kind)
  | j => (j.members?.map (rename kind)).bind (Json.knownFields? (fields kind))

def decode? (level : Nat) (j : Json) : Option Condition := do
  let (type, rest) ← split? j
  let kind ← type.string?.bind Vocabulary.exactly?
  if rest.isReadable level then
    let record ← record? kind rest
    ofRecord? kind record
  else none

end Condition

namespace Action

def bare? : ActionKind → Option Action
  | .keep => some keep
  | .discard => some discard
  | .stop => some stop
  | _ => none

def fields : ActionKind → List String
  | .keep | .discard | .stop => []
  | .fileinto => ["mailbox", "create", "copy", "flags"]
  | .redirect => ["address", "copy"]
  | .reject => ["reason"]
  | .addheader => ["name", "value", "last"]
  | .deleteheader => ["name", "value", "index", "last", "matchType", "comparator"]
  | .vacation => ["days", "subject", "message"]

def ofRecord? (access : Json.Access) (kind : ActionKind) (record : List (String × Json)) :
    Option Action :=
  match kind with
  | .keep | .discard | .stop => none
  | .fileinto => do
    let mailbox ← fieldOr record "mailbox" "" Json.string?
    let create ← fieldOr record "create" false Json.bool?
    let copy ← fieldOr record "copy" false Json.bool?
    let flags ← fieldOr record "flags" [] Json.strings?
    return fileinto mailbox create copy flags
  | .redirect => do
    let address ← fieldOr record "address" "" Json.string?
    let copy ← fieldOr record "copy" false Json.bool?
    return redirect address copy
  | .reject => do
    let reason ← fieldOr record "reason" "" Json.string?
    return reject reason
  | .addheader => do
    let name ← fieldOr record "name" "" Json.string?
    let value ← fieldOr record "value" "" Json.string?
    let last ← fieldOr record "last" false Json.bool?
    return addheader name value last
  | .deleteheader => do
    let name ← fieldOr record "name" "" Json.string?
    let value ← fieldOr record "value" none (Json.optional? Json.string?)
    let index ← fieldOr record "index" none (Json.optional? Json.word32?)
    let last ← fieldOr record "last" false Json.bool?
    let matchType ← fieldOr record "matchType" none (Json.optional? (Json.word? access))
    let comparator ← fieldOr record "comparator" none (Json.optional? Json.string?)
    return deleteheader name value index last matchType comparator
  | .vacation => do
    let days ← fieldOr record "days" none (Json.optional? Json.word32?)
    let subject ← fieldOr record "subject" none (Json.optional? Json.string?)
    let message ← fieldOr record "message" "" Json.string?
    return vacation days subject message

/-- The action of a kind with the parameters given, which an action without any takes only for
null. -/
def withParameters? (access : Json.Access) (kind : ActionKind) (parameters : Json) :
    Option Action :=
  match parameters with
  | .null => bare? kind
  | .object members => do
    let members ← (Json.object members).members?
    let record ← Json.knownFields? (fields kind) members
    ofRecord? access kind record
  | _ => none

/-- The action that a value inside `level` arrays and objects stands for. Parameters before their
type are read from a copy. In an array the type has to be a string. -/
def decode? (level : Nat) : Json → Option Action
  | .array [type, parameters] => do
    let kind ← type.string?.bind Vocabulary.exactly?
    withParameters? .inPlace kind parameters
  | .object members => do
    let members ← (Json.object members).members?
    match ← Json.knownFields? ["type", "parameters"] members with
    | [(name, type)] =>
      let kind ← type.word? .inPlace
      if name = "type" then bare? kind else none
    | [(name, first), (_, second)] =>
      if name = "type" then
        let kind ← first.word? .inPlace
        withParameters? .inPlace kind second
      else
        let kind ← second.word? .inPlace
        if first.isReadable (level + 1) then withParameters? .copied kind first else none
    | _ => none
  | _ => none

def namesBare (type : Json) : Bool :=
  match type.string?.bind Vocabulary.named? with
  | some (kind : ActionKind) => kind.isBare
  | none => false

/-- An action whose type takes no parameters loses those it has left over. -/
def dropLeftover : Json → Json
  | .object members =>
    if members.any fun m => m.1 = some "type" && namesBare m.2 then
      .object (members.filter (·.1 ≠ some "parameters"))
    else .object members
  | j => j

/-- The action in a list of actions. It is read from a settled copy. -/
def decodeItem? (level : Nat) (j : Json) : Option Action :=
  if j.isReadable level then decode? level (dropLeftover j.settle) else none

end Action

structure StoredRule where
  id : Option RuleId
  policy : Policy
  deriving DecidableEq, Repr

namespace StoredRule

def fields : List String := ["id", "active", "combinator", "conditions", "actions"]

def decode? (level : Nat) (j : Json) : Option StoredRule := do
  let record ← j.record? fields
  let id ← fieldOr record "id" none fun j => j.string?.map fun s => some ⟨s⟩
  let active ← fieldOr record "active" true Json.bool?
  let combinator ← fieldOr record "combinator" .anyof (Json.word? .inPlace)
  let conditions ← fieldOr record "conditions" [] (Json.list? (Condition.decode? (level + 2)))
  let actions ← fieldOr record "actions" [] (Json.list? (Action.decodeItem? (level + 2)))
  return ⟨id, active, combinator, conditions, actions⟩

def named (rule : StoredRule) (source : IdSource) : Rule × IdSource :=
  match rule.id with
  | some id => (rule.policy.named id, source)
  | none =>
    let (id, source) := source.mint
    (rule.policy.named id, source)

def nameAll (source : IdSource) : List StoredRule → List Rule × IdSource
  | [] => ([], source)
  | rule :: rest =>
    let (rule, source) := rule.named source
    let (rules, source) := nameAll source rest
    (rule :: rules, source)

end StoredRule

/-- The flags of an object. A repeated name counts with its last flag. -/
def CapabilitySet.decode? (j : Json) : Option CapabilitySet := do
  let members ← j.members?
  let flags ← members.mapM fun (name, value) => value.bool?.map fun on => (name, on)
  return ⟨.ofList flags⟩

structure StoredRuleSet where
  rules : List StoredRule
  extensions : CapabilitySet
  deriving DecidableEq, Repr

namespace StoredRuleSet

def decode? (j : Json) : Option StoredRuleSet := do
  let record ← j.record? ["rules", "extensions"]
  let rules ← fieldOr record "rules" [] (Json.list? (StoredRule.decode? 2))
  let extensions ← fieldOr record "extensions" .empty CapabilitySet.decode?
  return ⟨rules, extensions⟩

def named (stored : StoredRuleSet) (source : IdSource) : RuleSet × IdSource :=
  let (rules, source) := StoredRule.nameAll source stored.rules
  (⟨rules, stored.extensions⟩, source)

end StoredRuleSet

def decodeText? {α : Type} (decode : Json → Option α) (text : String) : Option α :=
  (Json.read? text).bind decode

def RuleSet.decodeStrict? (text : String) (source : IdSource) : Option (RuleSet × IdSource) :=
  (decodeText? StoredRuleSet.decode? text).map (·.named source)

end SieveRules
