import SieveRules.Proofs.Places
/-!
A field that is left out of a stored rule has its default, and nothing else of the rule changes.
Parameters are the exception: of an action that takes any they cannot be left out.
-/

namespace SieveRules

def defaultAt {α : Type} (lost field : String) (default value : α) : α :=
  if field = lost then default else value

namespace Condition

def reset (lost : String) : Condition → Condition
  | header comparator matchType name keys =>
    header (defaultAt lost "comparator" defaultComparator comparator)
      (defaultAt lost "matchType" .is matchType) (defaultAt lost "header" "" name)
      (defaultAt lost "keys" [] keys)
  | address comparator matchType part name keys =>
    address (defaultAt lost "comparator" defaultComparator comparator)
      (defaultAt lost "matchType" .is matchType) (defaultAt lost "addressPart" .all part)
      (defaultAt lost "header" "" name) (defaultAt lost "keys" [] keys)
  | envelope comparator matchType part name keys =>
    envelope (defaultAt lost "comparator" defaultComparator comparator)
      (defaultAt lost "matchType" .is matchType) (defaultAt lost "addressPart" .all part)
      (defaultAt lost "header" "" name) (defaultAt lost "keys" [] keys)
  | size operator limit =>
    size (defaultAt lost "operator" .larger operator) (defaultAt lost "size" "" limit)
  | body comparator matchType transform keys =>
    body (defaultAt lost "comparator" defaultComparator comparator)
      (defaultAt lost "matchType" .is matchType) (defaultAt lost "transform" .text transform)
      (defaultAt lost "keys" [] keys)
  | present names => present (defaultAt lost "header" [] names)
  | always => always
  | never => never

/-- The condition without the member of this name, which may be another name of its header. -/
def losing (name : String) (condition : Condition) : Condition :=
  condition.reset (fieldName condition.kind name)

end Condition

namespace Action

def reset (lost : String) : Action → Action
  | keep => keep
  | fileinto mailbox create copy flags =>
    fileinto (defaultAt lost "mailbox" "" mailbox) (defaultAt lost "create" false create)
      (defaultAt lost "copy" false copy) (defaultAt lost "flags" [] flags)
  | redirect address copy =>
    redirect (defaultAt lost "address" "" address) (defaultAt lost "copy" false copy)
  | discard => discard
  | reject reason => reject (defaultAt lost "reason" "" reason)
  | addheader name value last =>
    addheader (defaultAt lost "name" "" name) (defaultAt lost "value" "" value)
      (defaultAt lost "last" false last)
  | deleteheader name value index last matchType comparator =>
    deleteheader (defaultAt lost "name" "" name) (defaultAt lost "value" none value)
      (defaultAt lost "index" none index) (defaultAt lost "last" false last)
      (defaultAt lost "matchType" none matchType) (defaultAt lost "comparator" none comparator)
  | stop => stop
  | vacation days subject message =>
    vacation (defaultAt lost "days" none days) (defaultAt lost "subject" none subject)
      (defaultAt lost "message" "" message)

/-- The action of a kind with every field at its default. -/
def blank : ActionKind → Action
  | .keep => keep
  | .fileinto => fileinto "" false false []
  | .redirect => redirect "" false
  | .discard => discard
  | .reject => reject ""
  | .addheader => addheader "" "" false
  | .deleteheader => deleteheader "" none none false none none
  | .stop => stop
  | .vacation => vacation none none ""

end Action

namespace StoredRule

def reset (lost : String) (rule : StoredRule) : StoredRule where
  id := defaultAt lost "id" none rule.id
  policy :=
    { active := defaultAt lost "active" true rule.policy.active
      combinator := defaultAt lost "combinator" .anyof rule.policy.combinator
      conditions := defaultAt lost "conditions" [] rule.policy.conditions
      actions := defaultAt lost "actions" [] rule.policy.actions }

/-- The rule with the member of this name left out of the object at the place. Without its
parameters an action has all its fields at their defaults. -/
def losing (name : String) (rule : StoredRule) : Place → StoredRule
  | .rule => rule.reset name
  | .condition k =>
    { rule with policy.conditions := rule.policy.conditions.modify k (Condition.losing name) }
  | .action k =>
    if name = "parameters" then
      { rule with policy.actions := rule.policy.actions.modify k fun a => .blank a.kind }
    else rule
  | .parameters k =>
    { rule with policy.actions := rule.policy.actions.modify k (Action.reset name) }

def Place.isTyped : Place → Bool
  | condition _ | action _ => true
  | rule | parameters _ => false

/-- The member of this name at the place is the parameters of an action that takes some. -/
def Place.holdsParameters (name : String) (rule : StoredRule) : Place → Bool
  | action k => name = "parameters" && rule.policy.actions[k]?.any fun a => !a.kind.isBare
  | _ => false

end StoredRule

theorem fieldOr_without {α : Type} {record : List (String × Json)} {field : String} {default a : α}
    {read : Json → Option α} (h : fieldOr record field default read = some a) (lost : String) :
    fieldOr (record.filter fun m => m.1 ≠ lost) field default read =
      some (defaultAt lost field default a) := by
  unfold fieldOr defaultAt at *
  rw [Dictionary.lookup_filter fun n => decide (n ≠ lost)]
  by_cases hf : field = lost
  · simp [hf]
  · simpa [hf] using h

namespace Json

/-- A record loses the field of the member that is left out, where no other member is that field. -/
theorem knownFields?_without {fields : List String} (rename : String → String)
    {members record : List (String × Json)} {name : String}
    (h : knownFields? fields (members.map fun m => (rename m.1, m.2)) = some record)
    (only : ∀ m ∈ members, rename m.1 ∈ fields → rename m.1 = rename name → m.1 = name) :
    knownFields? fields
        ((members.filter fun m => m.1 ≠ name).map fun m => (rename m.1, m.2)) =
      some (record.filter fun m => m.1 ≠ rename name) := by
  obtain ⟨rfl, distinct⟩ := knownFields?_eq_some_iff.mp h
  refine knownFields?_eq_some_iff.mpr
    ⟨?_, distinct.sublist (List.filter_sublist.map Prod.fst)⟩
  rw [List.filter_map, List.filter_map, List.filter_map, List.filter_filter, List.filter_filter]
  refine congrArg (List.map _) (List.filter_congr fun m hm => ?_)
  by_cases hf : rename m.1 ∈ fields
  · have apart : m.1 ≠ name ↔ rename m.1 ≠ rename name :=
      not_congr ⟨congrArg rename, only m hm hf⟩
    simp [hf, apart]
  · simp [hf]

theorem knownFields?_filter {fields : List String} {members record : List (String × Json)}
    (h : knownFields? fields members = some record) (name : String) :
    knownFields? fields (members.filter fun m => m.1 ≠ name) =
      some (record.filter fun m => m.1 ≠ name) := by
  have unchanged : ∀ listed : List (String × Json),
      listed.map (fun m => (id m.1, m.2)) = listed := List.map_id
  have left := @knownFields?_without fields id members record name
    ((congrArg _ (unchanged members)).trans h) fun _ _ _ same => same
  rwa [unchanged] at left

theorem settle_without {j : Json} {level : Nat} (h : j.isReadable level = true) (name : String) :
    (j.without name).settle = j.settle.without name := by
  cases j with
  | object members =>
    obtain ⟨named, whole⟩ := named_of_readable h
    have chosen := Dictionary.ofList_filter (fun n => decide (n ≠ name))
      (named.map fun m => (m.1, m.2.settle))
    rw [List.filter_map] at chosen
    rw [whole, without_ofMembers, settle_ofMembers, settle_ofMembers, without_ofMembers]
    exact congrArg ofMembers chosen.symm
  | array items =>
    change (array items).settle = (array items).settle.without name
    rw [settle]
    rfl
  | _ => rfl

theorem mem_modify {items : List Json} {k : Nat} {f : Json → Json} {item : Json}
    (h : item ∈ items.modify k f) : item ∈ items ∨ ∃ first ∈ items, item = f first := by
  obtain ⟨i, hi⟩ := List.getElem?_of_mem h
  rw [List.getElem?_modify] at hi
  obtain ⟨first, hf, rfl⟩ := Option.map_eq_some_iff.mp hi
  split
  · exact .inr ⟨first, List.mem_of_getElem? hf, rfl⟩
  · exact .inl (List.mem_of_getElem? hf)

theorem readable_atField {j : Json} {level : Nat} (h : j.isReadable level = true)
    {f : Json → Json}
    (hf : ∀ v : Json, v.isReadable (level + 1) = true → (f v).isReadable (level + 1) = true)
    (fields : List String) (name : String) :
    (j.atField fields name f).isReadable level = true := by
  cases j with
  | object members =>
    obtain ⟨named, whole⟩ := named_of_readable h
    rw [whole] at h ⊢
    obtain ⟨deep, each⟩ := readable_object_iff.mp h
    rw [atField_ofMembers]
    refine readable_object_iff.mpr ⟨deep, fun m hm => ?_⟩
    obtain ⟨first, listed, rfl⟩ := List.mem_map.mp hm
    dsimp only
    split
    · exact hf _ (each first listed)
    · exact each first listed
  | array items =>
    obtain ⟨deep, each⟩ := readable_array_iff.mp h
    refine readable_array_iff.mpr ⟨deep, fun item hi => ?_⟩
    rcases mem_modify hi with listed | ⟨first, listed, rfl⟩
    · exact each item listed
    · exact hf first (each first listed)
  | _ => exact h

end Json

namespace Condition

theorem ofRecord?_without {kind : ConditionKind} {record : List (String × Json)}
    {condition : Condition} (h : ofRecord? kind record = some condition) (lost : String) :
    condition.kind = kind ∧
      ofRecord? kind (record.filter fun m => m.1 ≠ lost) = some (condition.reset lost) := by
  obtain ⟨comparator, hc, h⟩ := Option.bind_eq_some_iff.mp h
  obtain ⟨matchType, hm, h⟩ := Option.bind_eq_some_iff.mp h
  obtain ⟨keys, hk, h⟩ := Option.bind_eq_some_iff.mp h
  rw [ofRecord?, fieldOr_without hc, fieldOr_without hm, fieldOr_without hk]
  cases kind with
  | header =>
    obtain ⟨name, hn, h⟩ := Option.bind_eq_some_iff.mp h
    cases h
    simp only [fieldOr_without hn]
    exact ⟨rfl, rfl⟩
  | address =>
    obtain ⟨part, hp, h⟩ := Option.bind_eq_some_iff.mp h
    obtain ⟨name, hn, h⟩ := Option.bind_eq_some_iff.mp h
    cases h
    simp only [fieldOr_without hp, fieldOr_without hn]
    exact ⟨rfl, rfl⟩
  | envelope =>
    obtain ⟨part, hp, h⟩ := Option.bind_eq_some_iff.mp h
    obtain ⟨name, hn, h⟩ := Option.bind_eq_some_iff.mp h
    cases h
    simp only [fieldOr_without hp, fieldOr_without hn]
    exact ⟨rfl, rfl⟩
  | size =>
    obtain ⟨operator, ho, h⟩ := Option.bind_eq_some_iff.mp h
    obtain ⟨limit, hl, h⟩ := Option.bind_eq_some_iff.mp h
    cases h
    simp only [fieldOr_without ho, fieldOr_without hl]
    exact ⟨rfl, rfl⟩
  | body =>
    obtain ⟨transform, ht, h⟩ := Option.bind_eq_some_iff.mp h
    cases h
    simp only [fieldOr_without ht]
    exact ⟨rfl, rfl⟩
  | present =>
    obtain ⟨names, hn, h⟩ := Option.bind_eq_some_iff.mp h
    cases h
    simp only [fieldOr_without hn]
    exact ⟨rfl, rfl⟩
  | always =>
    cases h
    exact ⟨rfl, rfl⟩
  | never =>
    cases h
    exact ⟨rfl, rfl⟩

theorem only_field {kind : ConditionKind} {members record : List (String × Json)}
    (h : Json.knownFields? (fields kind)
      (members.map fun m => (fieldName kind m.1, m.2)) = some record)
    {name : String} (present : name ∈ members.map Prod.fst) :
    ∀ m ∈ members, fieldName kind m.1 ∈ fields kind →
      fieldName kind m.1 = fieldName kind name → m.1 = name := by
  intro m hm known same
  obtain ⟨other, ho, rfl⟩ := List.mem_map.mp present
  obtain ⟨rfl, distinct⟩ := Json.knownFields?_eq_some_iff.mp h
  rw [List.filter_map, List.map_map] at distinct
  have kept : ∀ n ∈ members, fieldName kind n.1 ∈ fields kind →
      n ∈ members.filter ((fun m => decide (m.1 ∈ fields kind)) ∘
        fun m => (fieldName kind m.1, m.2)) :=
    fun n hn field => List.mem_filter.mpr ⟨hn, decide_eq_true field⟩
  have one := List.inj_on_of_nodup_map distinct (kept m hm known)
    (kept other ho (same ▸ known)) same
  rw [one]

theorem ofParts?_without {level : Nat} {type : Json} {others : List (String × Json)}
    {condition : Condition} (h : ofParts? level type others = some condition) {name : String}
    (present : name ∈ others.map Prod.fst) :
    ofParts? level type (others.filter fun m => m.1 ≠ name) = some (condition.losing name) := by
  obtain ⟨kind, hk, h⟩ := Option.bind_eq_some_iff.mp h
  split at h
  · rename_i readable
    obtain ⟨record, hr, h⟩ := Option.bind_eq_some_iff.mp h
    have smaller := Json.readable_without readable name
    rw [Json.without_ofMembers] at smaller
    have left := Json.knownFields?_without (fieldName kind) hr (only_field hr present)
    obtain ⟨same, read⟩ := ofRecord?_without h (fieldName kind name)
    rw [ofParts?, hk, Option.bind_some, if_pos smaller, left, Option.bind_some, read, losing, same]
  · cases h

theorem decode?_without {level : Nat} {j : Json} {condition : Condition}
    (h : decode? level j = some condition) {name : String} (present : j.has name = true)
    (other : name ≠ "type") : decode? level (j.without name) = some (condition.losing name) := by
  cases j with
  | object members =>
    obtain ⟨parts, hs, -⟩ := Option.bind_eq_some_iff.mp h
    obtain ⟨named, hm, -⟩ := Option.bind_eq_some_iff.mp hs
    rw [Json.ofMembers_of_members? hm] at h present ⊢
    have listed : name ∈ (named.filter fun m => m.1 ≠ "type").map Prod.fst := by
      obtain ⟨m, hn, rfl⟩ := List.mem_map.mp ((Json.has_ofMembers name named).mp present)
      exact List.mem_map.mpr ⟨m, List.mem_filter.mpr ⟨hn, decide_eq_true other⟩, rfl⟩
    have typed : (named.filter fun m => m.1 ≠ name).filter (·.1 = "type") =
        named.filter (·.1 = "type") := by
      rw [List.filter_filter]
      refine List.filter_congr fun m _ => ?_
      by_cases hm : m.1 = "type"
      · simp [hm, Ne.symm other]
      · simp [hm]
    -- the type is taken out of the object first, so the member is missing among the others
    have rest : (named.filter fun m => m.1 ≠ name).filter (fun m => m.1 ≠ "type") =
        (named.filter fun m => m.1 ≠ "type").filter fun m => m.1 ≠ name := List.filter_comm ..
    rw [decode?_object] at h
    rw [Json.without_ofMembers, decode?_object, typed, rest]
    split at h
    · exact ofParts?_without h listed
    · cases h
  | _ => cases present

end Condition

namespace Action

theorem bare?_inv {kind : ActionKind} {action : Action} (h : bare? kind = some action) :
    action.kind = kind ∧ kind.isBare = true ∧ blank kind = action ∧
      ∀ lost, action.reset lost = action := by
  cases kind <;> cases h <;> exact ⟨rfl, rfl, rfl, fun _ => rfl⟩

theorem blank_of_isBare {action : Action} (h : action.kind.isBare = true) :
    blank action.kind = action := by
  cases action <;> first | rfl | cases h

theorem bare?_of_not_isBare {kind : ActionKind} (h : kind.isBare = false) : bare? kind = none := by
  cases kind <;> first | rfl | cases h

theorem ofRecord?_without {access : Json.Access} {kind : ActionKind}
    {record : List (String × Json)} {action : Action}
    (h : ofRecord? access kind record = some action) (lost : String) :
    action.kind = kind ∧
      ofRecord? access kind (record.filter fun m => m.1 ≠ lost) = some (action.reset lost) := by
  cases kind with
  | keep | discard | stop => cases h
  | fileinto =>
    obtain ⟨mailbox, hm, h⟩ := Option.bind_eq_some_iff.mp h
    obtain ⟨create, hc, h⟩ := Option.bind_eq_some_iff.mp h
    obtain ⟨copy, hp, h⟩ := Option.bind_eq_some_iff.mp h
    obtain ⟨flags, hf, h⟩ := Option.bind_eq_some_iff.mp h
    cases h
    simp only [ofRecord?, fieldOr_without hm, fieldOr_without hc, fieldOr_without hp,
      fieldOr_without hf]
    exact ⟨rfl, rfl⟩
  | redirect =>
    obtain ⟨address, ha, h⟩ := Option.bind_eq_some_iff.mp h
    obtain ⟨copy, hp, h⟩ := Option.bind_eq_some_iff.mp h
    cases h
    simp only [ofRecord?, fieldOr_without ha, fieldOr_without hp]
    exact ⟨rfl, rfl⟩
  | reject =>
    obtain ⟨reason, hr, h⟩ := Option.bind_eq_some_iff.mp h
    cases h
    simp only [ofRecord?, fieldOr_without hr]
    exact ⟨rfl, rfl⟩
  | addheader =>
    obtain ⟨name, hn, h⟩ := Option.bind_eq_some_iff.mp h
    obtain ⟨value, hv, h⟩ := Option.bind_eq_some_iff.mp h
    obtain ⟨last, hl, h⟩ := Option.bind_eq_some_iff.mp h
    cases h
    simp only [ofRecord?, fieldOr_without hn, fieldOr_without hv, fieldOr_without hl]
    exact ⟨rfl, rfl⟩
  | deleteheader =>
    obtain ⟨name, hn, h⟩ := Option.bind_eq_some_iff.mp h
    obtain ⟨value, hv, h⟩ := Option.bind_eq_some_iff.mp h
    obtain ⟨index, hi, h⟩ := Option.bind_eq_some_iff.mp h
    obtain ⟨last, hl, h⟩ := Option.bind_eq_some_iff.mp h
    obtain ⟨matchType, hm, h⟩ := Option.bind_eq_some_iff.mp h
    obtain ⟨comparator, hc, h⟩ := Option.bind_eq_some_iff.mp h
    cases h
    simp only [ofRecord?, fieldOr_without hn, fieldOr_without hv, fieldOr_without hi,
      fieldOr_without hl, fieldOr_without hm, fieldOr_without hc]
    exact ⟨rfl, rfl⟩
  | vacation =>
    obtain ⟨days, hd, h⟩ := Option.bind_eq_some_iff.mp h
    obtain ⟨subject, hs, h⟩ := Option.bind_eq_some_iff.mp h
    obtain ⟨message, hm, h⟩ := Option.bind_eq_some_iff.mp h
    cases h
    simp only [ofRecord?, fieldOr_without hd, fieldOr_without hs, fieldOr_without hm]
    exact ⟨rfl, rfl⟩

theorem withParameters?_without {access : Json.Access} {kind : ActionKind} {parameters : Json}
    {action : Action} (h : withParameters? access kind parameters = some action) (name : String) :
    action.kind = kind ∧
      withParameters? access kind (parameters.without name) = some (action.reset name) := by
  cases parameters with
  | null =>
    obtain ⟨same, -, -, kept⟩ := bare?_inv h
    exact ⟨same, h.trans (congrArg some (kept name).symm)⟩
  | object members =>
    obtain ⟨named, hm, h⟩ := Option.bind_eq_some_iff.mp h
    obtain ⟨record, hr, h⟩ := Option.bind_eq_some_iff.mp h
    obtain ⟨same, read⟩ := ofRecord?_without h name
    refine ⟨same, ?_⟩
    rw [Json.ofMembers_of_members? hm, Json.without_ofMembers, withParameters?_object,
      Json.knownFields?_filter hr name, Option.bind_some, read]
  | _ => cases h

theorem withParameters?_bare {access : Json.Access} {kind : ActionKind} {parameters : Json}
    {action : Action} (h : withParameters? access kind parameters = some action)
    (bare : kind.isBare = true) : bare? kind = some action := by
  cases parameters with
  | null => exact h
  | object members =>
    obtain ⟨named, -, h⟩ := Option.bind_eq_some_iff.mp h
    obtain ⟨record, -, h⟩ := Option.bind_eq_some_iff.mp h
    cases kind <;> first | cases h | cases bare
  | _ => cases h

theorem ofParts?_inv {level : Nat} {type : Json} {parameters : Option Json} {action : Action}
    (h : ofParts? level type parameters = some action) :
    type.word? .inPlace = some action.kind ∧
      match if namesBare type then none else parameters with
      | none => bare? action.kind = some action
      | some found => found.isReadable (level + 1) = true ∧
          withParameters? .copied action.kind found = some action := by
  obtain ⟨kind, hk, h⟩ := Option.bind_eq_some_iff.mp h
  generalize (if namesBare type then none else parameters) = given at h ⊢
  cases given with
  | none =>
    obtain ⟨rfl, -⟩ := bare?_inv h
    exact ⟨hk, h⟩
  | some found =>
    dsimp only at h
    split at h
    · rename_i readable
      obtain ⟨rfl, -⟩ := withParameters?_without h ""
      exact ⟨hk, readable, h⟩
    · cases h

theorem ofParts?_none {level : Nat} {type : Json} {parameters : Option Json} {action : Action}
    (h : ofParts? level type parameters = some action) :
    ofParts? level type none = if action.kind.isBare then some action else none := by
  obtain ⟨named, found⟩ := ofParts?_inv h
  rw [ofParts?, named, Option.bind_some, ite_self]
  dsimp only
  cases bare : action.kind.isBare with
  | true =>
    split at found
    · exact found
    · exact withParameters?_bare found.2 bare
  | false => exact bare?_of_not_isBare bare

theorem ofParts?_field {level : Nat} {type parameters : Json} {action : Action}
    (h : ofParts? level type (some parameters) = some action) (name : String) :
    ofParts? level type (some (parameters.without name)) = some (action.reset name) := by
  obtain ⟨named, found⟩ := ofParts?_inv h
  rw [ofParts?, named, Option.bind_some]
  cases hb : namesBare type with
  | true =>
    rw [hb] at found
    exact found.trans (congrArg some ((bare?_inv found).2.2.2 name).symm)
  | false =>
    rw [hb] at found
    obtain ⟨readable, found⟩ := found
    have left := (withParameters?_without found name).2
    exact (if_pos (Json.readable_without readable name)).trans left

theorem decodeItem?_without {level : Nat} {j : Json} {action : Action}
    (h : decodeItem? level j = some action) {name : String} (present : j.has name = true)
    (other : name ≠ "type") :
    decodeItem? level (j.without name) =
      if name = "parameters" ∧ action.kind.isBare = false then none else some action := by
  cases j with
  | object members =>
    have readable := readable_of_decodeItem? h
    obtain ⟨named, whole⟩ := Json.named_of_readable readable
    have smaller := Json.readable_without readable name
    rw [whole, Json.without_ofMembers] at smaller
    rw [whole] at h readable ⊢
    rw [decodeItem?_object readable] at h
    rw [Json.without_ofMembers, decodeItem?_object smaller, Json.last?_without, Json.last?_without,
      if_neg (Ne.symm other)]
    obtain ⟨type, ht, h⟩ := Option.bind_eq_some_iff.mp h
    rw [ht, Option.bind_some]
    by_cases hp : name = "parameters"
    · rw [if_pos hp.symm, Option.map_none, ofParts?_none h]
      cases action.kind.isBare <;> simp [hp]
    · rw [if_neg (Ne.symm hp), h, if_neg fun both => hp both.1]
  | _ => cases present

theorem decodeItem?_field {level : Nat} {j : Json} {action : Action}
    (h : decodeItem? level j = some action) (name : String) :
    decodeItem? level (j.atField ["type", "parameters"] "parameters" (Json.without name)) =
      some (action.reset name) := by
  have readable := readable_of_decodeItem? h
  have smaller := Json.readable_atField readable (fun v hv => Json.readable_without hv name)
    ["type", "parameters"] "parameters"
  cases j with
  | object members =>
    obtain ⟨named, whole⟩ := Json.named_of_readable readable
    rw [whole] at h readable smaller ⊢
    rw [Json.atField_ofMembers] at smaller ⊢
    rw [decodeItem?_object readable] at h
    have type_kept : Json.last? (Json.changed "parameters" (Json.without name) named) "type" =
        Json.last? named "type" := by
      rw [Json.last?_changed]
      exact Option.map_id'
    rw [decodeItem?_object smaller, type_kept, Json.last?_changed]
    obtain ⟨type, ht, h⟩ := Option.bind_eq_some_iff.mp h
    rw [ht, Option.bind_some]
    simp only [if_true]
    cases hp : Json.last? named "parameters" with
    | none =>
      -- without parameters it is an action that takes none, and has no field to lose
      rw [hp] at h
      have bare := (ofParts?_inv h).2
      rw [Option.map_none, ite_self] at bare
      exact h.trans (congrArg some ((bare?_inv bare).2.2.2 name).symm)
    | some parameters =>
      have inside := (Json.readable_object_iff.mp readable).2 _
        (List.mem_reverse.mp (mem_of_lookup hp))
      rw [hp] at h
      rw [Option.map_some, Option.map_some, Json.settle_without inside]
      exact ofParts?_field h name
  | array items =>
    by_cases pair : items.length = 2
    · obtain ⟨type, parameters, rfl⟩ := List.length_eq_two.mp pair
      have inside := (Json.readable_array_iff.mp readable).2 parameters (by simp)
      rw [decodeItem?_pair readable] at h
      obtain ⟨kind, hk, h⟩ := Option.bind_eq_some_iff.mp h
      refine (decodeItem?_pair smaller).trans ?_
      rw [hk, Option.bind_some, Json.settle_without inside]
      exact (withParameters?_without h name).2
    · rw [decodeItem?_array pair] at h
      cases h
  | _ =>
    rw [decodeItem?, if_pos readable] at h
    cases h

end Action

theorem set_of_getElem? {α : Type} {items : List α} {k : Nat} {a : α} (h : items[k]? = some a)
    (g : α → α) : items.set k (g a) = items.modify k g := by
  apply List.ext_getElem?
  intro i
  rw [List.getElem?_set, List.getElem?_modify]
  by_cases hk : k = i
  · subst hk
    obtain ⟨short, rfl⟩ := List.getElem?_eq_some_iff.mp h
    simp [short]
  · simp [hk]

namespace StoredRule

theorem decode?_without_member {level : Nat} {j : Json} {rule : StoredRule}
    (h : decode? level j = some rule) {name : String} (present : j.has name = true) :
    decode? level (j.without name) = some (rule.reset name) := by
  cases j with
  | object members =>
    obtain ⟨record, hr, read⟩ := Option.bind_eq_some_iff.mp ((decode?_eq _ _).symm.trans h)
    obtain ⟨named, hm, hk⟩ := Option.bind_eq_some_iff.mp hr
    have left : ((Json.object members).without name).record? fields =
        some (record.filter fun m => m.1 ≠ name) := by
      rw [Json.ofMembers_of_members? hm, Json.without_ofMembers, Json.record?_ofMembers,
        Json.knownFields?_filter hk name]
    obtain ⟨hi, ha, hc, hs, ht⟩ := readRecord?_eq_some_iff.mp read
    rw [decode?_eq, left, Option.bind_some]
    exact readRecord?_eq_some_iff.mpr ⟨fieldOr_without hi name, fieldOr_without ha name,
      fieldOr_without hc name, fieldOr_without hs name, fieldOr_without ht name⟩
  | _ => cases present

/-- Without its parameters an action is kept only if it takes none. -/
theorem decode?_without_parameters {level : Nat} {j : Json} {rule : StoredRule}
    (h : decode? level j = some rule) {k : Nat} {item : Json}
    (hi : (Place.action k).at? j = some item) {name : String} (present : item.has name = true)
    (other : name ≠ "type") :
    decode? level ((Place.action k).edit (Json.without name) j) =
      if (Place.action k).holdsParameters name rule then none
      else some (rule.losing name (.action k)) := by
  obtain ⟨action, ha, at_k, edited⟩ := decode?_action_changed h hi (Json.without name)
  rw [edited, Action.decodeItem?_without ha present other, Place.holdsParameters, at_k, losing]
  by_cases hp : name = "parameters"
  · cases bare : action.kind.isBare with
    | true =>
      have same := set_of_getElem? at_k fun a => .blank a.kind
      rw [Action.blank_of_isBare bare] at same
      simp [hp, bare, same]
    | false => simp [hp, bare]
  · have same := (set_of_getElem? at_k fun a => a).trans (List.modify_id k _)
    simp [hp, same]

/-- A rule without one of its members, or without a member of a condition, of an action or of
parameters, is the rule with that field at its default; a name that is left out is given anew. Only
an action that takes parameters is none without them, and then there is no rule either. -/
theorem omitted_field_defaults {level : Nat} {j : Json} {rule : StoredRule}
    (h : decode? level j = some rule) {place : Place} {name : String}
    (present : (place.at? j).any (Json.has name) = true)
    (kept : place.isTyped = true → name ≠ "type") :
    decode? level (place.edit (Json.without name) j) =
        (if place.holdsParameters name rule then none else some (rule.losing name place)) ∧
      ∀ source : IdSource, (rule.losing "id" .rule).named source =
        (rule.policy.named source.mint.1, source.mint.2) := by
  constructor
  · obtain ⟨found, hf, has⟩ := (Option.any_eq_true _ _).mp present
    cases place with
    | rule =>
      cases hf
      exact decode?_without_member h has
    | condition k =>
      obtain ⟨condition, hc, at_k, edited⟩ := decode?_condition_changed h hf (Json.without name)
      rw [edited, Condition.decode?_without hc has (kept rfl), Option.map_some]
      exact congrArg (fun conditions => some { rule with policy.conditions := conditions })
        (set_of_getElem? at_k (Condition.losing name))
    | action k => exact decode?_without_parameters h hf has (kept rfl)
    | parameters k =>
      rw [Place.at?_parameters] at hf
      obtain ⟨item, hi, -⟩ := Option.bind_eq_some_iff.mp hf
      obtain ⟨action, ha, at_k, edited⟩ := decode?_action_changed h hi
        (Json.atField ["type", "parameters"] "parameters" (Json.without name))
      rw [Place.edit_parameters, edited, Action.decodeItem?_field ha name, Option.map_some]
      exact congrArg (fun actions => some { rule with policy.actions := actions })
        (set_of_getElem? at_k (Action.reset name))
  · exact fun source => rfl

/-- An envelope test with its header under the other name, and an action with parameters. -/
def envelopeRule : Json :=
  .ofMembers [("id", .ofString "a"),
    ("conditions", .array [.ofMembers
      [("type", .ofString "envelope"), ("part", .ofString "from"), ("keys", .ofStrings ["x"])]]),
    ("actions", .array [.ofMembers [("type", .ofString "fileinto"),
      ("parameters", .ofMembers [("mailbox", .ofString "Junk")])]])]

theorem envelopeRule_omissions :
    decode? 0 envelopeRule = some ⟨some ⟨"a"⟩, ⟨true, .anyof,
      [.envelope defaultComparator .is .all "from" ["x"]], [.fileinto "Junk" false false []]⟩⟩ ∧
    ((Place.condition 0).at? envelopeRule).any (Json.has "part") = true ∧
    decode? 0 ((Place.condition 0).edit (Json.without "part") envelopeRule) =
      some ⟨some ⟨"a"⟩, ⟨true, .anyof,
        [.envelope defaultComparator .is .all "" ["x"]], [.fileinto "Junk" false false []]⟩⟩ ∧
    decode? 0 ((Place.parameters 0).edit (Json.without "mailbox") envelopeRule) =
      some ⟨some ⟨"a"⟩, ⟨true, .anyof,
        [.envelope defaultComparator .is .all "from" ["x"]], [.fileinto "" false false []]⟩⟩ ∧
    decode? 0 (envelopeRule.without "id") = some ⟨none, ⟨true, .anyof,
      [.envelope defaultComparator .is .all "from" ["x"]], [.fileinto "Junk" false false []]⟩⟩ := by
  have read : decode? 0 envelopeRule = some ⟨some ⟨"a"⟩, ⟨true, .anyof,
      [.envelope defaultComparator .is .all "from" ["x"]], [.fileinto "Junk" false false []]⟩⟩ := by
    decide +kernel
  have part := @omitted_field_defaults _ _ _ read (.condition 0) "part" (by decide +kernel)
    fun _ => by decide
  have mailbox := @omitted_field_defaults _ _ _ read (.parameters 0) "mailbox" (by decide +kernel)
    nofun
  have id := @omitted_field_defaults _ _ _ read .rule "id" (by decide +kernel) nofun
  exact ⟨read, by decide +kernel, part.1.trans (by decide +kernel),
    mailbox.1.trans (by decide +kernel), id.1.trans (by decide +kernel)⟩

def emptyFileinto : Json :=
  .ofMembers [("id", .ofString "a"), ("actions", .array [.ofMembers
    [("type", .ofString "fileinto"), ("parameters", .ofMembers [])]])]

/-- All the fields of the action have their defaults already, and yet there is no rule once its
empty parameters are left out. -/
theorem emptyFileinto_needs_parameters :
    decode? 0 emptyFileinto =
      some ⟨some ⟨"a"⟩, ⟨true, .anyof, [], [.fileinto "" false false []]⟩⟩ ∧
    ((Place.action 0).at? emptyFileinto).any (Json.has "parameters") = true ∧
    losing "parameters" ⟨some ⟨"a"⟩, ⟨true, .anyof, [], [.fileinto "" false false []]⟩⟩
      (.action 0) = ⟨some ⟨"a"⟩, ⟨true, .anyof, [], [.fileinto "" false false []]⟩⟩ ∧
    decode? 0 ((Place.action 0).edit (Json.without "parameters") emptyFileinto) = none := by
  decide +kernel

end StoredRule

end SieveRules
