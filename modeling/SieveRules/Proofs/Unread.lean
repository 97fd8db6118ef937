import SieveRules.Proofs.Places
/-!
What of a stored filter is read, object by object. A member of any other name makes no difference:
the same rules are read, the same items are none, and the same is told.
-/

namespace SieveRules

/-- The names that are read of a condition: its type, and the fields of that type. -/
def Condition.namesRead (j : Json) : List String :=
  "type" :: (((j.field? ["type"] "type").bind Json.string?).bind Vocabulary.exactly?).elim []
    fun kind => fields kind ++ if kind = .envelope then ["part"] else []

namespace Action

/-- The names that are read of an action: its type, and parameters but for a type without any. -/
def namesRead (j : Json) : List String :=
  "type" :: if (j.field? ["type", "parameters"] "type").any namesBare then [] else ["parameters"]

/-- The names that are read of the parameters of an action: the fields of its type. -/
def fieldsRead (j : Json) : List String :=
  ((j.field? ["type", "parameters"] "type").bind (Json.word? .inPlace)).elim [] fields

end Action

def StoredRule.Place.namesRead (j : Json) : Place → List String
  | rule => fields
  | condition k => ((condition k).at? j).elim [] Condition.namesRead
  | action k => ((action k).at? j).elim [] Action.namesRead
  | parameters k => ((action k).at? j).elim [] Action.fieldsRead

namespace StoredRuleSet

def fields : List String := ["rules", "extensions"]

/-- An object of a stored filter: the filter itself, or one that belongs to a rule. -/
inductive Place where
  | filter
  | inRule (k : Nat) (place : StoredRule.Place)
  deriving DecidableEq, Repr

namespace Place

def edit (f : Json → Json) : Place → Json → Json
  | filter => f
  | inRule k place => Json.atField fields "rules" (Json.atItem k (place.edit f))

def namesRead (j : Json) : Place → List String
  | filter => fields
  | inRule k place => ((j.field? fields "rules").bind (Json.item? k)).elim [] place.namesRead

end Place

end StoredRuleSet

theorem Dictionary.filter_insert {α : Type} (d : Dictionary α) (value : α) (p : String → Bool)
    {name : String} (h : p name = false) :
    (d.insert name value).entries.filter (fun e => p e.1) = d.entries.filter fun e => p e.1 := by
  have same : (d.insert name value).only p = d.only p := by
    apply eq_of_get?
    intro key
    rw [get?_only, get?_only, get?_insert]
    by_cases hk : key = name
    · rw [hk, h]
      rfl
    · rw [if_neg hk]
  exact congrArg entries same

namespace Json

theorem settled_object {members : List (Option String × Json)}
    (h : (object members).settle = object members) :
    ∃ d : Dictionary Json, object members = ofMembers d.entries ∧
      ∀ m ∈ d.entries, m.2.settle = m.2 := by
  refine ⟨Dictionary.ofList (settleMembers members), ?_, ?_⟩
  · rw [← settle]
    exact h.symm
  · intro m hm
    obtain ⟨first, -, rfl⟩ := mem_settled hm
    exact settle_settle first.2

theorem settled_array {items : List Json} (h : (array items).settle = array items) :
    ∀ item ∈ items, item.settle = item := by
  intro item hi
  obtain ⟨k, hk⟩ := List.getElem?_of_mem hi
  rw [settle, settleItems_map, array.injEq] at h
  have same : (items.map settle)[k]? = items[k]? := congrArg (fun listed => listed[k]?) h
  rw [List.getElem?_map, hk] at same
  exact Option.some.inj same

theorem settled_item {j item : Json} (h : j.settle = j) {k : Nat} (hk : j.item? k = some item) :
    item.settle = item := by
  cases j with
  | array items => exact settled_array h item (List.mem_of_getElem? hk)
  | _ => cases hk

theorem field?_entries (d : Dictionary Json) (fields : List String) (name : String) :
    (ofMembers d.entries).field? fields name = d.get? name := by
  rw [field?_ofMembers, last?_eq_lookup d.distinct, Dictionary.get?]

theorem settled_field {j value : Json} (h : j.settle = j) {fields : List String} {name : String}
    (hf : j.field? fields name = some value) : value.settle = value := by
  cases j with
  | array items => exact settled_array h value (List.mem_of_getElem? hf)
  | object members =>
    obtain ⟨d, whole, settled⟩ := settled_object h
    rw [whole, field?_entries] at hf
    exact settled _ (Dictionary.get?_eq_some_iff.mp hf)
  | _ => cases hf

def editEntry (name : String) (f : Json → Json) (d : Dictionary Json) : Dictionary Json :=
  ⟨changed name f d.entries, List.pairwise_map.mpr d.sorted⟩

theorem get?_editEntry (name : String) (f : Json → Json) (d : Dictionary Json) (key : String) :
    (editEntry name f d).get? key = (d.get? key).map fun j => if key = name then f j else j :=
  lookup_changed name f d.entries key

/-- The first change of a settled value, once it is settled, is the second. A change inside a settled
value so needs settling only where it is made. -/
def SettlesTo (f g : Json → Json) : Prop :=
  ∀ j, j.settle = j → (f j).settle = g j

theorem settlesTo_settle (f : Json → Json) : SettlesTo f (settle ∘ f) :=
  fun _ _ => rfl

namespace SettlesTo

variable {f g : Json → Json}

theorem modify (h : SettlesTo f g) {items : List Json}
    (hs : ∀ item ∈ items, item.settle = item) (k : Nat) :
    (items.modify k f).map settle = items.modify k g := by
  apply List.ext_getElem?
  intro i
  rw [List.getElem?_map, List.getElem?_modify, List.getElem?_modify]
  cases hi : items[i]? with
  | none => rfl
  | some item =>
    have settled := hs item (List.mem_of_getElem? hi)
    by_cases hk : k = i
    · simp [hk, h item settled]
    · simp [hk, settled]

theorem atItem (h : SettlesTo f g) (k : Nat) : SettlesTo (Json.atItem k f) (Json.atItem k g) := by
  intro j hj
  cases j with
  | array items =>
    rw [Json.atItem, settle, settleItems_map, h.modify (settled_array hj)]
    rfl
  | _ => exact hj

theorem atField (h : SettlesTo f g) (fields : List String) (name : String) :
    SettlesTo (Json.atField fields name f) (Json.atField fields name g) := by
  intro j hj
  cases j with
  | array items =>
    rw [Json.atField, settle, settleItems_map, h.modify (settled_array hj)]
    rfl
  | object members =>
    obtain ⟨d, whole, settled⟩ := settled_object hj
    have values : (changed name f d.entries).map (fun m => (m.1, m.2.settle)) =
        changed name g d.entries := by
      rw [changed, changed, List.map_map]
      refine List.map_congr_left fun m hm => ?_
      dsimp only [Function.comp_apply]
      split
      · rw [h _ (settled m hm)]
      · rw [settled m hm]
    rw [whole, atField_ofMembers, atField_ofMembers, settle_ofMembers, values]
    exact congrArg (fun d => ofMembers d.entries)
      (Dictionary.ofList_of_perm (.refl (editEntry name g d).entries))
  | _ => exact hj

theorem rulePlace (h : SettlesTo f g) (place : StoredRule.Place) :
    SettlesTo (place.edit f) (place.edit g) := by
  cases place with
  | rule => exact h
  | condition k => exact (h.atItem k).atField _ _
  | action k => exact (h.atItem k).atField _ _
  | parameters k => exact ((h.atField _ _).atItem k).atField _ _

theorem filterPlace (h : SettlesTo f g) (place : StoredRuleSet.Place) :
    SettlesTo (place.edit f) (place.edit g) := by
  cases place with
  | filter => exact h
  | inRule k place => exact ((h.rulePlace place).atItem k).atField _ _

end SettlesTo

def put (name : String) (value : Json) : Json → Json :=
  settle ∘ adding name value

theorem put_settled (name : String) (value j : Json) :
    (put name value j).settle = put name value j :=
  settle_settle _

theorem put_cases (name : String) (value : Json) {j : Json} (h : j.settle = j) :
    put name value j = j ∨
      ∃ d : Dictionary Json, j = ofMembers d.entries ∧
        put name value j = ofMembers (d.insert name value.settle).entries := by
  cases j with
  | object members =>
    obtain ⟨d, whole, settled⟩ := settled_object h
    refine .inr ⟨d, whole, ?_⟩
    have same : d.entries.map (fun m => (m.1, m.2.settle)) = d.entries :=
      (List.map_congr_left fun m hm => congrArg (m.1, ·) (settled m hm)).trans (List.map_id _)
    have more : Dictionary.ofList (d.entries ++ [(name, value.settle)]) =
        d.insert name value.settle := by
      rw [Dictionary.ofList, List.foldl_append]
      exact congrArg (·.insert name value.settle) (Dictionary.ofList_of_perm (.refl d.entries))
    rw [put, Function.comp_apply, whole, adding_ofMembers, settle_ofMembers, List.map_append, same]
    exact congrArg (fun d => ofMembers d.entries) more
  | _ => exact .inl h

theorem knownFields?_congr {fields : List String} {members others : List (String × Json)}
    (h : (members.filter fun m => m.1 ∈ fields) = others.filter fun m => m.1 ∈ fields) :
    knownFields? fields members = knownFields? fields others := by
  unfold knownFields?
  rw [h]

theorem knownFields?_insert {fields : List String} (d : Dictionary Json) {name : String}
    (value : Json) (h : name ∉ fields) :
    knownFields? fields (d.insert name value).entries = knownFields? fields d.entries :=
  knownFields?_congr (d.filter_insert value (fun n => decide (n ∈ fields)) (decide_eq_false h))

end Json

namespace Condition

theorem ofParts?_congr {level : Nat} {type : Json} {others more : List (String × Json)}
    (ho : (Json.ofMembers others).isReadable level = true)
    (hm : (Json.ofMembers more).isReadable level = true)
    (h : ∀ kind : ConditionKind, type.string?.bind Vocabulary.exactly? = some kind →
      (more.filter fun m => fieldName kind m.1 ∈ fields kind) =
        others.filter fun m => fieldName kind m.1 ∈ fields kind) :
    ofParts? level type more = ofParts? level type others := by
  unfold ofParts?
  cases hk : (type.string?.bind Vocabulary.exactly? : Option ConditionKind) with
  | none => rfl
  | some kind =>
    have known : Json.knownFields? (fields kind) (more.map fun m => (fieldName kind m.1, m.2)) =
        Json.knownFields? (fields kind) (others.map fun m => (fieldName kind m.1, m.2)) := by
      refine Json.knownFields?_congr ?_
      rw [List.filter_map, List.filter_map]
      exact congrArg (List.map fun m => (fieldName kind m.1, m.2)) (h kind hk)
    rw [Option.bind_some, Option.bind_some, if_pos ho, if_pos hm, known]

/-- No name that is read of a condition of this kind, not even another one for a field. -/
theorem unread_field {kind : ConditionKind} {name : String}
    (h : name ∉ fields kind ++ if kind = .envelope then ["part"] else []) :
    fieldName kind name ∉ fields kind := by
  rw [List.mem_append, not_or] at h
  unfold fieldName
  split
  · rename_i renamed
    rw [if_pos renamed.1] at h
    exact absurd (List.mem_singleton.mpr renamed.2) h.2
  · exact h.1

theorem decode?_put {level : Nat} {j : Json} (settled : j.settle = j)
    (readable : j.isReadable level = true) {name : String} {value : Json}
    (more : (Json.put name value j).isReadable level = true) (unread : name ∉ namesRead j) :
    decode? level (Json.put name value j) = decode? level j := by
  rcases Json.put_cases name value settled with same | ⟨d, rfl, put⟩
  · rw [same]
  · rw [put] at more ⊢
    have other : name ≠ "type" := fun same => unread (same ▸ List.mem_cons_self)
    have typed := d.filter_insert value.settle (fun n => decide (n = "type"))
      (decide_eq_false other)
    have before := Json.readable_without readable "type"
    have behind := Json.readable_without more "type"
    rw [Json.without_ofMembers] at before behind
    rw [decode?_object, decode?_object, typed]
    split
    · rename_i key type one
      have named_type : (key, type) ∈ d.entries.filter (·.1 = "type") := one ▸ List.mem_cons_self
      obtain ⟨listed, named⟩ := List.mem_filter.mp named_type
      obtain rfl : key = "type" := of_decide_eq_true named
      refine ofParts?_congr before behind fun kind hk => ?_
      rw [namesRead, Json.field?_entries, Dictionary.get?_eq_some_iff.mpr listed, Option.bind_some,
        hk] at unread
      -- under its own name or the one it is renamed to, the new member is no field
      have free := unread_field fun field => unread (List.mem_cons_of_mem _ field)
      have kept := d.filter_insert value.settle
        (fun n => decide (fieldName kind n ∈ fields kind) && decide (n ≠ "type"))
        (by rw [decide_eq_false free]; exact Bool.false_and _)
      rw [List.filter_filter, List.filter_filter]
      exact kept
    · rfl

end Condition

namespace Action

theorem decodeItem?_entries {level : Nat} {d : Dictionary Json}
    (settled : (Json.ofMembers d.entries).settle = .ofMembers d.entries)
    (readable : (Json.ofMembers d.entries).isReadable level = true) :
    decodeItem? level (.ofMembers d.entries) =
      (d.get? "type").bind fun type => ofParts? level type (d.get? "parameters") := by
  rw [decodeItem?, if_pos readable, settled, decode?_settled]

theorem ofParts?_leftover {level : Nat} {type : Json} (h : namesBare type = true)
    (parameters others : Option Json) :
    ofParts? level type parameters = ofParts? level type others := by
  rw [ofParts?, ofParts?]
  simp only [h, if_true]

theorem decodeItem?_put {level : Nat} {j : Json} (settled : j.settle = j)
    (readable : j.isReadable level = true) {name : String} {value : Json}
    (more : (Json.put name value j).isReadable level = true) (unread : name ∉ namesRead j) :
    decodeItem? level (Json.put name value j) = decodeItem? level j := by
  have again := Json.put_settled name value j
  rcases Json.put_cases name value settled with same | ⟨d, rfl, put⟩
  · rw [same]
  · rw [put] at more again ⊢
    rw [namesRead, Json.field?_entries, List.mem_cons, not_or] at unread
    rw [decodeItem?_entries again more, decodeItem?_entries settled readable,
      Dictionary.get?_insert, Dictionary.get?_insert, if_neg (Ne.symm unread.1)]
    cases ht : d.get? "type" with
    | none => rfl
    | some type =>
      rw [ht] at unread
      by_cases bare : namesBare type = true
      · exact ofParts?_leftover bare _ _
      · have other : name ≠ "parameters" := by simpa [bare] using unread.2
        rw [if_neg (Ne.symm other)]

theorem withParameters?_put (access : Json.Access) {kind : ActionKind} {parameters : Json}
    (settled : parameters.settle = parameters) {name : String} (value : Json)
    (unread : name ∉ fields kind) :
    withParameters? access kind (Json.put name value parameters) =
      withParameters? access kind parameters := by
  rcases Json.put_cases name value settled with same | ⟨d, rfl, put⟩
  · rw [same]
  · rw [put, withParameters?_object, withParameters?_object,
      Json.knownFields?_insert d value.settle unread]

theorem ofParts?_put {level : Nat} {type parameters : Json}
    (settled : parameters.settle = parameters)
    (readable : parameters.isReadable (level + 1) = true) {name : String} {value : Json}
    (more : (Json.put name value parameters).isReadable (level + 1) = true)
    (unread : name ∉ (type.word? .inPlace).elim [] fields) :
    ofParts? level type (some (Json.put name value parameters)) =
      ofParts? level type (some parameters) := by
  unfold ofParts?
  cases hk : (type.word? .inPlace : Option ActionKind) with
  | none => rfl
  | some kind =>
    rw [hk] at unread
    rw [Option.bind_some, Option.bind_some]
    cases namesBare type with
    | true => rfl
    | false =>
      have same := withParameters?_put .copied settled value unread
      simp [readable, more, same]

theorem decodeItem?_put_field {level : Nat} {j : Json} (settled : j.settle = j)
    (readable : j.isReadable level = true) {name : String} {value : Json}
    (more : (j.atField ["type", "parameters"] "parameters" (Json.put name value)).isReadable level =
      true) (unread : name ∉ fieldsRead j) :
    decodeItem? level (j.atField ["type", "parameters"] "parameters" (Json.put name value)) =
      decodeItem? level j := by
  have still : (j.atField ["type", "parameters"] "parameters" (Json.put name value)).settle =
      j.atField ["type", "parameters"] "parameters" (Json.put name value) := by
    have once := (Json.settlesTo_settle (Json.adding name value)).atField ["type", "parameters"]
      "parameters" j settled
    rw [Json.put, ← once, Json.settle_settle]
  have inside : ∀ p, j.field? ["type", "parameters"] "parameters" = some p →
      p.settle = p ∧ p.isReadable (level + 1) = true ∧
        (Json.put name value p).isReadable (level + 1) = true := by
    intro p hp
    have placed := Json.field?_atField ["type", "parameters"] "parameters" (Json.put name value) j
    rw [hp] at placed
    exact ⟨Json.settled_field settled hp, Json.readable_field readable hp,
      Json.readable_field more placed⟩
  cases j with
  | object members =>
    obtain ⟨d, whole, -⟩ := Json.settled_object settled
    rw [whole] at settled readable more unread still inside ⊢
    rw [Json.atField_ofMembers] at more still ⊢
    have edited := @decodeItem?_entries _ (Json.editEntry "parameters" (Json.put name value) d)
      still more
    refine edited.trans ?_
    rw [decodeItem?_entries settled readable, Json.get?_editEntry, Json.get?_editEntry]
    rw [fieldsRead, Json.field?_entries] at unread
    cases ht : d.get? "type" with
    | none => rfl
    | some type =>
      rw [ht] at unread
      cases hp : d.get? "parameters" with
      | none => rfl
      | some parameters =>
        obtain ⟨same, before, behind⟩ := inside parameters ((Json.field?_entries d _ _).trans hp)
        exact ofParts?_put same before behind unread
  | array items =>
    by_cases pair : items.length = 2
    · obtain ⟨type, parameters, rfl⟩ := List.length_eq_two.mp pair
      obtain ⟨same, -, -⟩ := inside parameters rfl
      refine (decodeItem?_pair more).trans ?_
      rw [decodeItem?_pair readable]
      have type_same := Json.settled_array settled type (by simp)
      rw [type_same, Json.put_settled, same]
      cases hk : (type.string?.bind Vocabulary.exactly? : Option ActionKind) with
      | none => rfl
      | some kind =>
        have word : (type.word? .inPlace : Option ActionKind) = some kind := by
          cases type with
          | string text => exact hk
          | _ => cases hk
        have free : name ∉ ((some type).bind (Json.word? .inPlace)).elim [] fields := unread
        rw [Option.bind_some, word] at free
        exact withParameters?_put .inPlace same value free
    · rw [decodeItem?_array pair]
      exact decodeItem?_array (by rwa [List.length_modify])
  | _ => rfl

end Action

namespace StoredRule

theorem decode?_put_member (level : Nat) {j : Json} (settled : j.settle = j) {name : String}
    (value : Json) (unread : name ∉ fields) :
    decode? level (Json.put name value j) = decode? level j := by
  rcases Json.put_cases name value settled with same | ⟨d, rfl, put⟩
  · rw [same]
  · rw [put, decode?_eq, decode?_eq, Json.record?_ofMembers, Json.record?_ofMembers,
      Json.knownFields?_insert d value.settle unread]

/-- A rule is the same with a member more in any of its objects, if that member is not read. -/
theorem decode?_put {level : Nat} {j : Json} (settled : j.settle = j)
    (readable : j.isReadable level = true) {place : Place} {name : String} {value : Json}
    (more : (place.edit (Json.put name value) j).isReadable level = true)
    (unread : name ∉ place.namesRead j) :
    decode? level (place.edit (Json.put name value) j) = decode? level j := by
  have kept : ∀ field k (item : Json), (j.field? fields field).bind (Json.item? k) = some item →
      item.settle = item := by
    intro field k item hi
    obtain ⟨listed, hf, hk⟩ := Option.bind_eq_some_iff.mp hi
    exact Json.settled_item (Json.settled_field settled hf) hk
  have placed := place.at?_edit (Json.put name value) j
  cases place with
  | rule => exact decode?_put_member level settled value unread
  | condition k =>
    refine decode?_condition_same fun c hc => ?_
    rw [hc] at placed
    rw [Place.namesRead, hc] at unread
    exact Condition.decode?_put (kept _ _ _ hc) (Place.readable_list readable hc)
      (Place.readable_list more placed) unread
  | action k =>
    refine decode?_action_same fun a ha => ?_
    rw [ha] at placed
    rw [Place.namesRead, ha] at unread
    exact Action.decodeItem?_put (kept _ _ _ ha) (Place.readable_list readable ha)
      (Place.readable_list more placed) unread
  | parameters k =>
    rw [Place.edit_parameters] at more ⊢
    have around := (Place.action k).at?_edit
      (Json.atField ["type", "parameters"] "parameters" (Json.put name value)) j
    refine decode?_action_same fun a ha => ?_
    rw [ha] at around
    rw [Place.namesRead, ha] at unread
    exact Action.decodeItem?_put_field (kept _ _ _ ha) (Place.readable_list readable ha)
      (Place.readable_list more around) unread

theorem decodeItems_congr {items others : List Json} (index : Nat)
    (h : items.map (decode? 2) = others.map (decode? 2)) :
    decodeItems index items = decodeItems index others := by
  induction items generalizing others index with
  | nil =>
    rw [List.map_nil] at h
    rw [List.map_eq_nil_iff.mp h.symm]
  | cons item rest ih =>
    obtain ⟨other, more, rfl, first, later⟩ := List.map_eq_cons_iff.mp h.symm
    rw [decodeItems, decodeItems, ih (index + 1) later.symm, first]

theorem decodeField_put {field : Json} (settled : field.settle = field)
    (readable : field.isReadable 1 = true) {k : Nat} {place : Place} {name : String} {value : Json}
    (more : (field.atItem k (place.edit (Json.put name value))).isReadable 1 = true)
    (unread : name ∉ (field.item? k).elim [] place.namesRead) :
    decodeField (some (field.atItem k (place.edit (Json.put name value)))) =
      decodeField (some field) := by
  have placed := Json.item?_atItem k (place.edit (Json.put name value)) field
  cases field with
  | array items =>
    refine decodeItems_congr 0 (Json.map_modify_same fun item hi => ?_)
    have here : (Json.array items).item? k = some item := hi
    rw [here] at placed unread
    exact decode?_put (Json.settled_item settled here) (Json.readable_item readable here)
      (Json.readable_item more placed) unread
  | _ => rfl

end StoredRule

namespace StoredRuleSet

theorem recover_ofMembers (members : List (String × Json)) :
    recover (some (.ofMembers members)) =
      (⟨(StoredRule.decodeField (members.lookup "rules")).1,
          (CapabilitySet.decodeField (members.lookup "extensions")).1⟩,
        (StoredRule.decodeField (members.lookup "rules")).2 ++
          (CapabilitySet.decodeField (members.lookup "extensions")).2) := by
  have listed := Json.members?_ofMembers members
  rw [Json.ofMembers] at listed ⊢
  simp only [recover, listed, Option.getD_some]

theorem recover_put {j : Json} (settled : j.settle = j) (readable : j.isReadable 0 = true)
    {place : Place} {name : String} {value : Json}
    (more : (place.edit (Json.put name value) j).isReadable 0 = true)
    (unread : name ∉ place.namesRead j) :
    recover (some (place.edit (Json.put name value) j)) = recover (some j) := by
  cases place with
  | filter =>
    change recover (some (Json.put name value j)) = _
    rcases Json.put_cases name value settled with same | ⟨d, rfl, put⟩
    · rw [same]
    · have look : ∀ key ∈ fields,
          (d.insert name value.settle).entries.lookup key = d.entries.lookup key := by
        intro key hk
        have found := d.get?_insert name key value.settle
        rw [if_neg fun same : key = name => unread (same ▸ hk)] at found
        exact found
      rw [put, recover_ofMembers, recover_ofMembers, look "rules" (by decide),
        look "extensions" (by decide)]
  | inRule k place =>
    have placed := Json.field?_atField fields "rules"
      (Json.atItem k (place.edit (Json.put name value))) j
    cases j with
    | object members =>
      obtain ⟨d, whole, -⟩ := Json.settled_object settled
      rw [whole] at settled readable more unread placed ⊢
      rw [Place.edit] at more ⊢
      rw [Place.namesRead] at unread
      rw [Json.field?_entries] at unread placed
      have rules : StoredRule.decodeField ((d.get? "rules").map
          (Json.atItem k (place.edit (Json.put name value)))) =
          StoredRule.decodeField (d.get? "rules") := by
        cases hr : d.get? "rules" with
        | none => rfl
        | some field =>
          have hf := (Json.field?_entries d fields "rules").trans hr
          rw [hr] at unread placed
          exact StoredRule.decodeField_put (Json.settled_field settled hf)
            (Json.readable_field readable hf) (Json.readable_field more placed) unread
      have extensions : (Json.changed "rules" (Json.atItem k (place.edit (Json.put name value)))
          d.entries).lookup "extensions" = d.entries.lookup "extensions" := by
        rw [Json.lookup_changed]
        exact Option.map_id'
      rw [Json.atField_ofMembers, recover_ofMembers, recover_ofMembers, extensions,
        Json.lookup_changed]
      simp only [if_true]
      unfold Dictionary.get? at rules
      rw [rules]
    | _ => rfl

/-- A settled value with a member more is settled by settling the object that has it. -/
theorem edit_settled {j : Json} (settled : j.settle = j) (place : Place) (name : String)
    (value : Json) :
    (place.edit (Json.adding name value) j).settle = place.edit (Json.put name value) j :=
  (Json.settlesTo_settle (Json.adding name value)).filterPlace place j settled

end StoredRuleSet

theorem Json.readSettled?_spec {text : String} {j : Json} (h : Json.readSettled? text = some j) :
    j.settle = j ∧ j.isReadable 0 = true := by
  obtain ⟨whole, hw, rfl⟩ := Option.map_eq_some_iff.mp h
  exact ⟨Json.settle_settle whole, Json.settle_readable (Option.filter_eq_some_iff.mp hw).2⟩

/-- A stored filter is read the same with a member more in any of its objects, whatever its value,
if the layout of that object has no such name. An action whose type takes no parameters has none to
read either. -/
theorem RuleSet.decode_ignores_unread {text other : String} {stored : Json}
    {place : StoredRuleSet.Place} {name : String} {value : Json}
    (read : Json.readSettled? text = some stored)
    (more : Json.readSettled? other = some (place.edit (Json.adding name value) stored).settle)
    (unread : name ∉ place.namesRead stored) :
    StoredRuleSet.recover (Json.readSettled? other) =
        StoredRuleSet.recover (Json.readSettled? text) ∧
      ∀ source, decode other source = decode text source := by
  obtain ⟨settled, readable⟩ := Json.readSettled?_spec read
  have edited := StoredRuleSet.edit_settled settled place name value
  have readable_more := (Json.readSettled?_spec more).2
  rw [edited] at more readable_more
  have same : StoredRuleSet.recover (Json.readSettled? other) =
      StoredRuleSet.recover (Json.readSettled? text) := by
    rw [more, read]
    exact StoredRuleSet.recover_put settled readable readable_more unread
  refine ⟨same, fun source => ?_⟩
  unfold decode
  rw [same]

namespace RuleSet

def plainText : String :=
  "\x7b\"rules\":[\x7b\"conditions\":[\x7b\"type\":\"header\",\"keys\":[\"x\"]\x7d]," ++
    "\"actions\":[\x7b\"type\":\"keep\"\x7d]\x7d,7]\x7d"

def plainStored : Json :=
  .ofMembers [("rules", .array [.ofMembers
    [("actions", .array [.ofMembers [("type", .ofString "keep")]]),
      ("conditions", .array [.ofMembers
        [("keys", .ofStrings ["x"]), ("type", .ofString "header")]])], .ofNat 7])]

/-- The test has a field of another kind of test. -/
def foreignFieldText : String :=
  "\x7b\"rules\":[\x7b\"conditions\":[\x7b\"size\":5,\"type\":\"header\",\"keys\":[\"x\"]\x7d]," ++
    "\"actions\":[\x7b\"type\":\"keep\"\x7d]\x7d,7]\x7d"

/-- The action has parameters left over that none of its kind takes. -/
def leftoverText : String :=
  "\x7b\"rules\":[\x7b\"conditions\":[\x7b\"type\":\"header\",\"keys\":[\"x\"]\x7d]," ++
    "\"actions\":[\x7b\"type\":\"keep\",\"parameters\":[1]\x7d]\x7d,7]\x7d"

theorem plainText_extended :
    Json.readSettled? plainText = some plainStored ∧
    Json.readSettled? foreignFieldText = some ((StoredRuleSet.Place.inRule 0
      (.condition 0)).edit (Json.adding "size" (.ofNat 5)) plainStored).settle ∧
    Json.readSettled? leftoverText = some ((StoredRuleSet.Place.inRule 0
      (.action 0)).edit (Json.adding "parameters" (.array [.ofNat 1])) plainStored).settle ∧
    decode foreignFieldText (.startingAt 1) = decode plainText (.startingAt 1) ∧
    decode leftoverText (.startingAt 1) = decode plainText (.startingAt 1) ∧
    (decode plainText (.startingAt 1)).1.1.policies =
      [⟨true, .anyof, [.header defaultComparator .is "" ["x"]], [.keep]⟩] ∧
    (decode plainText (.startingAt 1)).2.map Event.level = [.warn] := by
  have read : Json.readSettled? plainText = some plainStored := by decide +kernel
  have foreign : Json.readSettled? foreignFieldText = some ((StoredRuleSet.Place.inRule 0
      (.condition 0)).edit (Json.adding "size" (.ofNat 5)) plainStored).settle := by decide +kernel
  have leftover : Json.readSettled? leftoverText = some ((StoredRuleSet.Place.inRule 0
      (.action 0)).edit (Json.adding "parameters" (.array [.ofNat 1])) plainStored).settle := by
    decide +kernel
  refine ⟨read, foreign, leftover, (decode_ignores_unread read foreign (by decide +kernel)).2 _,
    (decode_ignores_unread read leftover (by decide +kernel)).2 _, ?_⟩
  unfold decode
  rw [read]
  decide +kernel

end RuleSet

end SieveRules
