import SieveRules.Proofs.JsonEdits
/-!
The objects inside a stored rule: the rule itself, its conditions, its actions and the parameters
of these. Where one of them is changed, the rule is what it was but for what is read of that one.
-/

namespace SieveRules

namespace Condition

def ofParts? (level : Nat) (type : Json) (others : List (String × Json)) : Option Condition :=
  (type.string?.bind Vocabulary.exactly?).bind fun kind =>
    if (Json.ofMembers others).isReadable level then
      (Json.knownFields? (fields kind) (others.map fun m => (fieldName kind m.1, m.2))).bind
        (ofRecord? kind)
    else none

theorem decode?_object (level : Nat) (members : List (String × Json)) :
    decode? level (.ofMembers members) =
      match members.filter (·.1 = "type") with
      | [(_, type)] => ofParts? level type (members.filter (·.1 ≠ "type"))
      | _ => none := by
  have listed := Json.members?_ofMembers members
  have record : ∀ kind others, record? kind (.ofMembers others) = Json.knownFields? (fields kind)
      (others.map fun m => (fieldName kind m.1, m.2)) := by
    intro kind others
    change ((Json.ofMembers others).members?.map (rename kind)).bind _ = _
    rw [Json.members?_ofMembers, Option.map_some, Option.bind_some, rename_eq]
  rw [Json.ofMembers] at listed ⊢
  simp only [decode?, split?, listed, Option.bind_eq_bind, Option.bind_some]
  generalize members.filter (·.1 ≠ "type") = others
  generalize members.filter (fun m => decide (m.1 = "type")) = types
  rcases types with _ | ⟨⟨name, type⟩, _ | ⟨more, rest⟩⟩
  · rfl
  · simp only [Option.bind_some, record, ofParts?]
  · rfl

end Condition

namespace Action

def ofParts? (level : Nat) (type : Json) (parameters : Option Json) : Option Action :=
  (type.word? .inPlace).bind fun kind =>
    match if namesBare type then none else parameters with
    | none => bare? kind
    | some parameters =>
      if parameters.isReadable (level + 1) then withParameters? .copied kind parameters else none

theorem known_entries (d : Dictionary Json) :
    (d.only fun n => n ∈ ["type", "parameters"]).entries =
      ((d.get? "parameters").map fun p => ("parameters", p)).toList ++
        ((d.get? "type").map fun t => ("type", t)).toList := by
  have sorted : (((d.get? "parameters").map fun p => ("parameters", p)).toList ++
      ((d.get? "type").map fun t => ("type", t)).toList).Pairwise fun x y => x.1 < y.1 := by
    have apart : "parameters" < "type" := by decide
    cases d.get? "parameters" with
    | none => cases d.get? "type" <;> simp
    | some p =>
      cases d.get? "type" with
      | none => simp
      | some t => exact List.pairwise_pair.mpr apart
  let known : Dictionary Json := ⟨_, sorted⟩
  have same : d.only (fun n => n ∈ ["type", "parameters"]) = known := by
    apply Dictionary.eq_of_get?
    intro key
    change _ = List.lookup key (_ ++ _)
    rw [Dictionary.get?_only, List.lookup_append]
    by_cases hp : key = "parameters"
    · subst hp
      cases d.get? "parameters" <;> cases d.get? "type" <;> simp [Dictionary.lookup_cons_if]
    · by_cases ht : key = "type"
      · subst ht
        cases d.get? "parameters" <;> cases d.get? "type" <;> simp [Dictionary.lookup_cons_if]
      · cases d.get? "parameters" <;> cases d.get? "type" <;>
          simp [Dictionary.lookup_cons_if, hp, ht]
  exact congrArg Dictionary.entries same

theorem decode?_entries (level : Nat) (d : Dictionary Json) :
    decode? level (.ofMembers d.entries) = (d.get? "type").bind fun type =>
      (type.word? .inPlace).bind fun kind =>
        match d.get? "parameters" with
        | none => bare? kind
        | some parameters =>
          if parameters.isReadable (level + 1) then withParameters? .copied kind parameters
          else none := by
  have known : Json.knownFields? ["type", "parameters"] d.entries =
      some (((d.get? "parameters").map fun p => ("parameters", p)).toList ++
        ((d.get? "type").map fun t => ("type", t)).toList) := by
    have distinct := (d.only fun n => n ∈ ["type", "parameters"]).distinct
    rw [← known_entries]
    exact if_pos distinct
  have listed := Json.members?_ofMembers d.entries
  unfold Json.ofMembers at listed ⊢
  simp only [decode?, listed, Option.bind_eq_bind, Option.bind_some, known]
  cases d.get? "parameters" <;> cases d.get? "type" <;> simp

theorem dropLeftover_entries (d : Dictionary Json) :
    dropLeftover (.ofMembers d.entries) = .ofMembers (if (d.get? "type").any namesBare then
      d.entries.filter fun m => m.1 ≠ "parameters" else d.entries) := by
  have bare : ((d.entries.map fun m => (some m.1, m.2)).any fun m =>
      m.1 = some "type" && namesBare m.2) = (d.get? "type").any namesBare := by
    rw [Bool.eq_iff_iff, List.any_map, List.any_eq_true, Option.any_eq_true]
    constructor
    · rintro ⟨⟨name, value⟩, hm, hb⟩
      simp only [Function.comp_apply, Bool.and_eq_true, decide_eq_true_eq,
        Option.some.injEq] at hb
      obtain ⟨rfl, hb⟩ := hb
      exact ⟨value, Dictionary.get?_eq_some_iff.mpr hm, hb⟩
    · rintro ⟨value, hv, hb⟩
      exact ⟨_, Dictionary.get?_eq_some_iff.mp hv, by simpa using hb⟩
  have dropped := Json.without_ofMembers "parameters" d.entries
  unfold Json.ofMembers Json.without at dropped
  unfold Json.ofMembers dropLeftover
  dsimp only at dropped ⊢
  rw [bare]
  split
  · exact dropped
  · rfl

theorem decode?_settled (level : Nat) (d : Dictionary Json) :
    decode? level (dropLeftover (.ofMembers d.entries)) =
      (d.get? "type").bind fun type => ofParts? level type (d.get? "parameters") := by
  rw [dropLeftover_entries]
  cases ht : d.get? "type" with
  | none =>
    rw [Option.any_none, if_neg (by simp), decode?_entries, ht]
    rfl
  | some type =>
    rw [Option.any_some, Option.bind_some, ofParts?]
    by_cases hb : namesBare type = true
    · -- what is left is read like any other dictionary, and it has no parameters
      have kept := decode?_entries level (d.only fun n => n ≠ "parameters")
      rw [Dictionary.get?_only, Dictionary.get?_only, if_pos (by decide), if_neg (by decide), ht,
        Option.bind_some] at kept
      rw [if_pos hb]
      refine kept.trans ?_
      simp only [hb, if_true]
    · rw [if_neg hb, decode?_entries, ht, Option.bind_some]
      simp only [hb]
      rfl

theorem withParameters?_object (access : Json.Access) (kind : ActionKind)
    (members : List (String × Json)) :
    withParameters? access kind (.ofMembers members) =
      (Json.knownFields? (fields kind) members).bind (ofRecord? access kind) := by
  change ((Json.ofMembers members).members?.bind fun members =>
    (Json.knownFields? (fields kind) members).bind (ofRecord? access kind)) = _
  rw [Json.members?_ofMembers, Option.bind_some]

section

variable {level : Nat}

theorem readable_of_decodeItem? {j : Json} {action : Action}
    (h : decodeItem? level j = some action) : j.isReadable level = true := by
  by_contra unread
  rw [decodeItem?, if_neg unread] at h
  cases h

/-- An action in an object goes by its last type and its last parameters. -/
theorem decodeItem?_object {members : List (String × Json)}
    (h : (Json.ofMembers members).isReadable level = true) :
    decodeItem? level (.ofMembers members) =
      ((Json.last? members "type").map Json.settle).bind fun type =>
        ofParts? level type ((Json.last? members "parameters").map Json.settle) := by
  rw [decodeItem?, if_pos h, Json.settle_ofMembers, decode?_settled, Json.get?_settled,
    Json.get?_settled]

theorem decodeItem?_pair {type parameters : Json}
    (h : (Json.array [type, parameters]).isReadable level = true) :
    decodeItem? level (.array [type, parameters]) =
      (type.settle.string?.bind Vocabulary.exactly?).bind fun kind =>
        withParameters? .inPlace kind parameters.settle := by
  rw [decodeItem?, if_pos h]
  rfl

theorem decodeItem?_array {items : List Json} (h : items.length ≠ 2) :
    decodeItem? level (.array items) = none := by
  rw [decodeItem?, Json.settle, Json.settleItems_map]
  split
  · rcases items with _ | ⟨a, _ | ⟨b, _ | ⟨c, rest⟩⟩⟩
    · rfl
    · rfl
    · exact absurd rfl h
    · rfl
  · rfl

end

end Action

namespace StoredRule

/-- An object that belongs to a stored rule. -/
inductive Place where
  | rule
  | condition (k : Nat)
  | action (k : Nat)
  /-- The parameters of an action. -/
  | parameters (k : Nat)
  deriving DecidableEq, Repr

namespace Place

def edit (f : Json → Json) : Place → Json → Json
  | rule => f
  | condition k => Json.atField fields "conditions" (Json.atItem k f)
  | action k => Json.atField fields "actions" (Json.atItem k f)
  | parameters k =>
    Json.atField fields "actions"
      (Json.atItem k (Json.atField ["type", "parameters"] "parameters" f))

def at? (j : Json) : Place → Option Json
  | rule => some j
  | condition k => (j.field? fields "conditions").bind (Json.item? k)
  | action k => (j.field? fields "actions").bind (Json.item? k)
  | parameters k =>
    ((j.field? fields "actions").bind (Json.item? k)).bind
      (Json.field? ["type", "parameters"] "parameters")

theorem edit_parameters (f : Json → Json) (k : Nat) :
    (parameters k).edit f =
      (action k).edit (Json.atField ["type", "parameters"] "parameters" f) := rfl

theorem at?_parameters (j : Json) (k : Nat) :
    (parameters k).at? j =
      ((action k).at? j).bind (Json.field? ["type", "parameters"] "parameters") := rfl

theorem at?_edit (f : Json → Json) (j : Json) (place : Place) :
    place.at? (place.edit f j) = (place.at? j).map f := by
  have inside : ∀ name k (g : Json → Json),
      ((j.atField fields name (Json.atItem k g)).field? fields name).bind (Json.item? k) =
        ((j.field? fields name).bind (Json.item? k)).map g := by
    intro name k g
    rw [Json.field?_atField]
    cases j.field? fields name with
    | none => rfl
    | some field => exact Json.item?_atItem k g field
  cases place with
  | rule => rfl
  | condition k => exact inside "conditions" k f
  | action k => exact inside "actions" k f
  | parameters k =>
    rw [at?_parameters, at?_parameters, edit_parameters]
    have action : (action k).at? ((Place.action k).edit _ j) = _ :=
      inside "actions" k (Json.atField ["type", "parameters"] "parameters" f)
    rw [action]
    change (((Place.action k).at? j).map _).bind _ = _
    cases (Place.action k).at? j with
    | none => rfl
    | some item => exact Json.field?_atField _ "parameters" f item

theorem readable_list {j item : Json} {level : Nat} {name : String} {k : Nat}
    (h : j.isReadable level = true)
    (hi : (j.field? fields name).bind (Json.item? k) = some item) :
    item.isReadable (level + 2) = true := by
  obtain ⟨field, hf, hk⟩ := Option.bind_eq_some_iff.mp hi
  exact Json.readable_item (Json.readable_field h hf) hk

end Place

def readRecord? (conditions : Json → Option (List Condition))
    (actions : Json → Option (List Action)) (record : List (String × Json)) :
    Option StoredRule := do
  let id ← fieldOr record "id" none fun j => j.string?.map fun s => some ⟨s⟩
  let active ← fieldOr record "active" true Json.bool?
  let combinator ← fieldOr record "combinator" .anyof (Json.word? .inPlace)
  let conditions ← fieldOr record "conditions" [] conditions
  let actions ← fieldOr record "actions" [] actions
  return ⟨id, active, combinator, conditions, actions⟩

theorem decode?_eq (level : Nat) (j : Json) :
    decode? level j = (j.record? fields).bind (readRecord?
      (Json.list? (Condition.decode? (level + 2))) (Json.list? (Action.decodeItem? (level + 2)))) :=
  rfl

section

variable {conditions : Json → Option (List Condition)} {actions : Json → Option (List Action)}
  {record : List (String × Json)}

theorem readRecord?_eq_some_iff {rule : StoredRule} :
    readRecord? conditions actions record = some rule ↔
      fieldOr record "id" none (fun j => j.string?.map fun s => some ⟨s⟩) = some rule.id ∧
      fieldOr record "active" true Json.bool? = some rule.policy.active ∧
      fieldOr record "combinator" .anyof (Json.word? .inPlace) = some rule.policy.combinator ∧
      fieldOr record "conditions" [] conditions = some rule.policy.conditions ∧
      fieldOr record "actions" [] actions = some rule.policy.actions := by
  constructor
  · intro h
    obtain ⟨id, hi, h⟩ := Option.bind_eq_some_iff.mp h
    obtain ⟨active, ha, h⟩ := Option.bind_eq_some_iff.mp h
    obtain ⟨combinator, hc, h⟩ := Option.bind_eq_some_iff.mp h
    obtain ⟨found, hf, h⟩ := Option.bind_eq_some_iff.mp h
    obtain ⟨acts, hs, h⟩ := Option.bind_eq_some_iff.mp h
    cases h
    exact ⟨hi, ha, hc, hf, hs⟩
  · rintro ⟨hi, ha, hc, hf, hs⟩
    rw [readRecord?, hi, ha, hc, hf, hs]
    rfl

theorem readRecord?_conditions (g : Json → Json) :
    readRecord? conditions actions (Json.changed "conditions" g record) =
      readRecord? (conditions ∘ g) actions record := by
  simp [readRecord?, Json.fieldOr_changed]

theorem readRecord?_actions (g : Json → Json) :
    readRecord? conditions actions (Json.changed "actions" g record) =
      readRecord? conditions (actions ∘ g) record := by
  simp [readRecord?, Json.fieldOr_changed]

end

section

variable {α : Type} {fields : List String} {j : Json} {record : List (String × Json)}
  (hr : j.record? fields = some record) {name : String} (hn : name ∈ fields)
  {read : Json → Option α} {k : Nat}

include hr hn

theorem fieldOr_item_same {f : Json → Json}
    (h : ∀ item, (j.field? fields name).bind (Json.item? k) = some item →
      read (f item) = read item) :
    fieldOr record name [] (Json.list? read ∘ Json.atItem k f) =
      fieldOr record name [] (Json.list? read) := by
  rw [fieldOr, fieldOr, Json.lookup_record? hr hn]
  cases hf : j.field? fields name with
  | none => rfl
  | some field =>
    rw [hf] at h
    exact Json.list?_atItem_same h

/-- Where a list is read, it changes by what is read of the item that is changed. -/
theorem fieldOr_item {items : List α} (h : fieldOr record name [] (Json.list? read) = some items)
    {item : Json} (hi : (j.field? fields name).bind (Json.item? k) = some item)
    (f : Json → Json) :
    ∃ a, read item = some a ∧ items[k]? = some a ∧
      fieldOr record name [] (Json.list? read ∘ Json.atItem k f) =
        (read (f item)).map fun b => items.set k b := by
  obtain ⟨field, hf, hk⟩ := Option.bind_eq_some_iff.mp hi
  rw [fieldOr, (Json.lookup_record? hr hn).trans hf] at h ⊢
  exact Json.list?_atItem h hk

end

section

variable {level : Nat} {j : Json} {k : Nat} {f : Json → Json}

theorem decode?_edit_condition :
    decode? level ((Place.condition k).edit f j) = (j.record? fields).bind (readRecord?
      (Json.list? (Condition.decode? (level + 2)) ∘ Json.atItem k f)
      (Json.list? (Action.decodeItem? (level + 2)))) := by
  rw [decode?_eq, Place.edit, Json.record?_atField (by decide) (by decide)]
  cases j.record? fields with
  | none => rfl
  | some record => exact readRecord?_conditions _

theorem decode?_edit_action :
    decode? level ((Place.action k).edit f j) = (j.record? fields).bind (readRecord?
      (Json.list? (Condition.decode? (level + 2)))
      (Json.list? (Action.decodeItem? (level + 2)) ∘ Json.atItem k f)) := by
  rw [decode?_eq, Place.edit, Json.record?_atField (by decide) (by decide)]
  cases j.record? fields with
  | none => rfl
  | some record => exact readRecord?_actions _

theorem decode?_condition_same
    (h : ∀ c, (Place.condition k).at? j = some c →
      Condition.decode? (level + 2) (f c) = Condition.decode? (level + 2) c) :
    decode? level ((Place.condition k).edit f j) = decode? level j := by
  rw [decode?_edit_condition, decode?_eq]
  cases hr : j.record? fields with
  | none => rfl
  | some record =>
    rw [Option.bind_some, Option.bind_some, readRecord?,
      fieldOr_item_same hr (by decide) h, readRecord?]

theorem decode?_action_same
    (h : ∀ a, (Place.action k).at? j = some a →
      Action.decodeItem? (level + 2) (f a) = Action.decodeItem? (level + 2) a) :
    decode? level ((Place.action k).edit f j) = decode? level j := by
  rw [decode?_edit_action, decode?_eq]
  cases hr : j.record? fields with
  | none => rfl
  | some record =>
    rw [Option.bind_some, Option.bind_some, readRecord?,
      fieldOr_item_same hr (by decide) h, readRecord?]

theorem decode?_condition_changed {rule : StoredRule} (h : decode? level j = some rule) {c : Json}
    (hc : (Place.condition k).at? j = some c) (f : Json → Json) :
    ∃ condition, Condition.decode? (level + 2) c = some condition ∧
      rule.policy.conditions[k]? = some condition ∧
      decode? level ((Place.condition k).edit f j) = (Condition.decode? (level + 2) (f c)).map
        fun other => { rule with policy.conditions := rule.policy.conditions.set k other } := by
  rw [decode?_eq] at h
  obtain ⟨record, hr, h⟩ := Option.bind_eq_some_iff.mp h
  obtain ⟨hi, ha, hm, hs, ht⟩ := readRecord?_eq_some_iff.mp h
  obtain ⟨condition, hd, at_k, read⟩ := fieldOr_item hr (by decide) hs hc f
  refine ⟨condition, hd, at_k, ?_⟩
  rw [decode?_edit_condition, hr, Option.bind_some, readRecord?, hi, ha, hm, read, ht]
  cases Condition.decode? (level + 2) (f c) <;> rfl

theorem decode?_action_changed {rule : StoredRule} (h : decode? level j = some rule) {a : Json}
    (ha : (Place.action k).at? j = some a) (f : Json → Json) :
    ∃ action, Action.decodeItem? (level + 2) a = some action ∧
      rule.policy.actions[k]? = some action ∧
      decode? level ((Place.action k).edit f j) = (Action.decodeItem? (level + 2) (f a)).map
        fun other => { rule with policy.actions := rule.policy.actions.set k other } := by
  rw [decode?_eq] at h
  obtain ⟨record, hr, h⟩ := Option.bind_eq_some_iff.mp h
  obtain ⟨hi, hv, hm, hs, ht⟩ := readRecord?_eq_some_iff.mp h
  obtain ⟨action, hd, at_k, read⟩ := fieldOr_item hr (by decide) ht ha f
  refine ⟨action, hd, at_k, ?_⟩
  rw [decode?_edit_action, hr, Option.bind_some, readRecord?, hi, hv, hm, hs, read]
  cases Action.decodeItem? (level + 2) (f a) <;> rfl

end

end StoredRule

end SieveRules
