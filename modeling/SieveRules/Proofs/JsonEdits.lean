import SieveRules.Proofs.DamagedStore
/-!
Changes of JSON values: a member more or less, an item or a field changed. Of a record or a list
whose fields or items are read one by one, only what is read of the changed one can differ.
-/

namespace SieveRules

namespace Dictionary

variable {α : Type}

def only (p : String → Bool) (d : Dictionary α) : Dictionary α :=
  ⟨d.entries.filter fun e => p e.1, d.sorted.filter _⟩

theorem get?_only (p : String → Bool) (d : Dictionary α) (key : String) :
    (d.only p).get? key = if p key then d.get? key else none :=
  lookup_filter p d.entries key

end Dictionary

namespace Json

mutual

/-- The values are the same, number for number and member for member. -/
def same : Json → Json → Bool
  | null, null => true
  | bool a, bool b => a == b
  | number a, number b => a == b
  | string a, string b => a == b
  | array items, array others => sameItems items others
  | object members, object others => sameMembers members others
  | _, _ => false

def sameItems : List Json → List Json → Bool
  | [], [] => true
  | item :: rest, other :: others => item.same other && sameItems rest others
  | _, _ => false

def sameMembers : List (Option String × Json) → List (Option String × Json) → Bool
  | [], [] => true
  | (name, value) :: rest, (other, found) :: others =>
    name == other && value.same found && sameMembers rest others
  | _, _ => false

end

theorem sameItems_iff {items : List Json} (h : ∀ item ∈ items, ∀ j, item.same j = true ↔ item = j)
    (others : List Json) : sameItems items others = true ↔ items = others := by
  induction items generalizing others with
  | nil => cases others <;> simp [sameItems]
  | cons item rest ih =>
    have later := ih fun a ha => h a (List.mem_cons_of_mem _ ha)
    cases others with
    | nil => simp [sameItems]
    | cons other others => simp [sameItems, h item List.mem_cons_self other, later others]

theorem sameMembers_iff {members : List (Option String × Json)}
    (h : ∀ m ∈ members, ∀ j, m.2.same j = true ↔ m.2 = j)
    (others : List (Option String × Json)) :
    sameMembers members others = true ↔ members = others := by
  induction members generalizing others with
  | nil => cases others <;> simp [sameMembers]
  | cons m rest ih =>
    have later := ih fun a ha => h a (List.mem_cons_of_mem _ ha)
    cases others with
    | nil => simp [sameMembers]
    | cons other others =>
      obtain ⟨name, value⟩ := m
      simp [sameMembers, h (name, value) List.mem_cons_self other.2, later others, Prod.ext_iff]

theorem same_iff (j k : Json) : j.same k = true ↔ j = k := by
  induction j using Json.induction generalizing k with
  | null => cases k <;> simp [same]
  | bool value => cases k <;> simp [same]
  | number value => cases k <;> simp [same]
  | string value => cases k <;> simp [same]
  | array items ih => cases k <;> simp [same, sameItems_iff ih]
  | object members ih => cases k <;> simp [same, sameMembers_iff ih]

instance : DecidableEq Json :=
  fun j k => decidable_of_iff _ (same_iff j k)

end Json

namespace Json

def without (name : String) : Json → Json
  | object members => object (members.filter fun m => m.1 ≠ some name)
  | j => j

def adding (name : String) (value : Json) : Json → Json
  | object members => object (members ++ [(some name, value)])
  | j => j

def has (name : String) : Json → Bool
  | object members => members.any fun m => m.1 = some name
  | _ => false

def atItem (k : Nat) (f : Json → Json) : Json → Json
  | array items => array (items.modify k f)
  | j => j

/-- A record with one field changed. A record may be an object, or an array of its fields in their
order. -/
def atField (fields : List String) (name : String) (f : Json → Json) : Json → Json
  | object members => object (members.map fun m => (m.1, if m.1 = some name then f m.2 else m.2))
  | array items => array (items.modify (fields.idxOf name) f)
  | j => j

def item? (k : Nat) : Json → Option Json
  | array items => items[k]?
  | _ => none

/-- The value of a field of a record. Of a repeated member the last counts. -/
def field? (fields : List String) (name : String) : Json → Option Json
  | object members => members.reverse.lookup (some name)
  | array items => items[fields.idxOf name]?
  | _ => none

def changed (name : String) (f : Json → Json) (members : List (String × Json)) :
    List (String × Json) :=
  members.map fun m => (m.1, if m.1 = name then f m.2 else m.2)

section

variable (name : String) (f : Json → Json) (members : List (String × Json))

theorem without_ofMembers :
    (ofMembers members).without name = ofMembers (members.filter fun m => m.1 ≠ name) := by
  simp [ofMembers, without, List.filter_map, Function.comp_def]

theorem adding_ofMembers (value : Json) :
    adding name value (ofMembers members) = ofMembers (members ++ [(name, value)]) := by
  simp [ofMembers, adding]

theorem has_ofMembers : (ofMembers members).has name = true ↔ name ∈ members.map Prod.fst := by
  simp [ofMembers, has]

theorem atField_ofMembers (fields : List String) :
    (ofMembers members).atField fields name f = ofMembers (changed name f members) := by
  simp [ofMembers, atField, changed]

theorem field?_ofMembers (fields : List String) :
    (ofMembers members).field? fields name = last? members name := by
  rw [ofMembers, field?, ← List.map_reverse, last?]
  induction members.reverse with
  | nil => rfl
  | cons m rest ih =>
    rw [List.map_cons, List.lookup_cons, List.lookup_cons, ih]
    rfl

theorem lookup_changed (key : String) :
    (changed name f members).lookup key =
      (members.lookup key).map fun j => if key = name then f j else j := by
  induction members with
  | nil => rfl
  | cons m rest ih =>
    rw [changed] at ih ⊢
    rw [List.map_cons, Dictionary.lookup_cons_if, Dictionary.lookup_cons_if, ih]
    split
    · rename_i same
      rw [same, Option.map_some]
    · rfl

theorem last?_changed (key : String) :
    last? (changed name f members) key =
      (last? members key).map fun j => if key = name then f j else j := by
  have reversed : (changed name f members).reverse = changed name f members.reverse :=
    List.map_reverse.symm
  rw [last?, reversed, lookup_changed, last?]

theorem last?_without (key : String) :
    last? (members.filter fun m => m.1 ≠ name) key =
      if key = name then none else last? members key := by
  rw [last?, ← List.filter_reverse, Dictionary.lookup_filter (fun n => decide (n ≠ name)), last?]
  by_cases h : key = name <;> simp [h]

end

theorem last?_eq_lookup {members : List (String × Json)} (h : (members.map Prod.fst).Nodup)
    (name : String) : last? members name = members.lookup name :=
  lookup_perm (List.reverse_perm members) h name

theorem fieldOr_changed {α : Type} (name : String) (f : Json → Json)
    (record : List (String × Json)) (key : String) (default : α) (read : Json → Option α) :
    fieldOr (changed name f record) key default read =
      fieldOr record key default (if key = name then read ∘ f else read) := by
  unfold fieldOr
  rw [lookup_changed]
  cases record.lookup key with
  | none => rfl
  | some j => by_cases h : key = name <;> simp [h]

theorem record?_ofMembers (fields : List String) (members : List (String × Json)) :
    (ofMembers members).record? fields = knownFields? fields members := by
  change (ofMembers members).members?.bind (knownFields? fields) = _
  rw [members?_ofMembers, Option.bind_some]

theorem knownFields?_eq_some_iff {fields : List String} {members record : List (String × Json)} :
    knownFields? fields members = some record ↔
      (members.filter fun m => m.1 ∈ fields) = record ∧ (record.map Prod.fst).Nodup := by
  unfold knownFields?
  dsimp only
  constructor
  · intro h
    split at h
    · rename_i distinct
      cases h
      exact ⟨rfl, distinct⟩
    · cases h
  · rintro ⟨rfl, distinct⟩
    exact if_pos distinct

theorem knownFields?_changed (fields : List String) (name : String) (f : Json → Json)
    (members : List (String × Json)) :
    knownFields? fields (changed name f members) =
      (knownFields? fields members).map (changed name f) := by
  have chosen : (changed name f members).filter (fun m => m.1 ∈ fields) =
      changed name f (members.filter fun m => m.1 ∈ fields) := List.filter_map
  have names : (changed name f (members.filter fun m => m.1 ∈ fields)).map Prod.fst =
      (members.filter fun m => m.1 ∈ fields).map Prod.fst := List.map_map
  unfold knownFields?
  dsimp only
  rw [chosen, names]
  split <;> rfl

theorem zip_modify {fields : List String} {name : String} (hn : name ∈ fields)
    (hd : fields.Nodup) (f : Json → Json) (items : List Json) :
    fields.zip (items.modify (fields.idxOf name) f) = changed name f (fields.zip items) := by
  induction fields generalizing items with
  | nil => cases hn
  | cons field rest ih =>
    obtain ⟨fresh, distinct⟩ := List.nodup_cons.mp hd
    cases items with
    | nil => simp [changed]
    | cons item items =>
      by_cases h : field = name
      · subst h
        have others : changed field f (rest.zip items) = rest.zip items := by
          refine (List.map_congr_left fun m hm => ?_).trans (List.map_id _)
          have other : m.1 ≠ field := fun same => fresh (same ▸ (List.of_mem_zip hm).1)
          rw [if_neg other]
          rfl
        rw [changed] at others ⊢
        rw [List.idxOf_cons_self, List.modify_zero_cons, List.zip_cons_cons, List.zip_cons_cons,
          List.map_cons, others, if_pos rfl]
      · have later := ih ((List.mem_cons.mp hn).resolve_left (Ne.symm h)) distinct items
        rw [changed] at later ⊢
        rw [List.idxOf_cons_ne _ h, List.modify_succ_cons, List.zip_cons_cons, List.zip_cons_cons,
          List.map_cons, later, if_neg h]

theorem members?_atField (fields : List String) (name : String) (f : Json → Json)
    (members : List (Option String × Json)) :
    ((object members).atField fields name f).members? =
      (object members).members?.map (changed name f) := by
  cases h : (object members).members? with
  | some named => rw [ofMembers_of_members? h, atField_ofMembers, members?_ofMembers]; rfl
  | none =>
    -- a name that is no text stays one, by induction on the members before it
    rw [Option.map_none, atField, members?, List.mapM_map]
    rw [members?] at h
    revert h
    induction members with
    | nil => intro h; cases h
    | cons m rest ih =>
      obtain ⟨key, value⟩ := m
      rw [List.mapM_cons, List.mapM_cons]
      cases key with
      | none => exact fun _ => rfl
      | some key =>
        intro h
        cases hr : rest.mapM (fun m => m.1.map fun name => (name, m.2)) with
        | none =>
          have later := ih hr
          simp only [Function.comp_apply, Option.map_some, Option.bind_eq_bind, Option.bind_some]
          rw [later]
          rfl
        | some named =>
          rw [hr] at h
          cases h

theorem record?_atField {fields : List String} {name : String} (hn : name ∈ fields)
    (hd : fields.Nodup) (f : Json → Json) (j : Json) :
    (j.atField fields name f).record? fields = (j.record? fields).map (changed name f) := by
  cases j with
  | array items =>
    rw [atField, record?, record?, List.length_modify, zip_modify hn hd]
    split <;> rfl
  | object members =>
    change ((object members).atField fields name f).members?.bind (knownFields? fields) =
      ((object members).members?.bind (knownFields? fields)).map (changed name f)
    rw [members?_atField]
    cases (object members).members? with
    | none => rfl
    | some named => exact knownFields?_changed fields name f named
  | _ => rfl

theorem lookup_zip {fields : List String} {name : String} (hn : name ∈ fields)
    (items : List Json) : (fields.zip items).lookup name = items[fields.idxOf name]? := by
  induction fields generalizing items with
  | nil => cases hn
  | cons field rest ih =>
    cases items with
    | nil => simp
    | cons item items =>
      rw [List.zip_cons_cons, Dictionary.lookup_cons_if]
      by_cases h : name = field
      · rw [if_pos h, h, List.idxOf_cons_self, List.getElem?_cons_zero]
      · rw [if_neg h, ih ((List.mem_cons.mp hn).resolve_left h) items,
          List.idxOf_cons_ne _ (Ne.symm h), List.getElem?_cons_succ]

theorem lookup_record? {fields : List String} {j : Json} {record : List (String × Json)}
    (h : j.record? fields = some record) {name : String} (hn : name ∈ fields) :
    record.lookup name = j.field? fields name := by
  cases j with
  | array items =>
    rw [record?] at h
    split at h
    · cases h
      exact lookup_zip hn items
    · cases h
  | object members =>
    obtain ⟨named, hm, hk⟩ := Option.bind_eq_some_iff.mp h
    obtain ⟨rfl, distinct⟩ := knownFields?_eq_some_iff.mp hk
    have listed : last? (named.filter fun m => m.1 ∈ fields) name = last? named name := by
      rw [last?, ← List.filter_reverse, Dictionary.lookup_filter fun n => decide (n ∈ fields),
        decide_eq_true hn, if_pos rfl, last?]
    rw [ofMembers_of_members? hm, field?_ofMembers, ← listed, last?_eq_lookup distinct]
  | _ => cases h

section

variable {α : Type} {read : Json → Option α} {k : Nat} {f : Json → Json}

theorem map_modify_same {β : Type} {read : Json → β} {items : List Json}
    (h : ∀ item, items[k]? = some item → read (f item) = read item) :
    (items.modify k f).map read = items.map read := by
  apply List.ext_getElem?
  intro i
  rw [List.getElem?_map, List.getElem?_map, List.getElem?_modify]
  cases hi : items[i]? with
  | none => rfl
  | some item =>
    by_cases hk : k = i
    · subst hk
      simp [h item hi]
    · simp [hk]

theorem mapM_congr {items others : List Json} (h : items.map read = others.map read) :
    items.mapM read = others.mapM read := by
  have through : ∀ listed : List Json, listed.mapM read = (listed.map read).mapM id :=
    fun listed => (@List.mapM_map Option _ _ _ _ _ read id listed).symm
  rw [through, h, ← through]

theorem list?_atItem_same {j : Json}
    (h : ∀ item, j.item? k = some item → read (f item) = read item) :
    list? read (j.atItem k f) = list? read j := by
  cases j with
  | array items => exact mapM_congr (map_modify_same h)
  | _ => rfl

theorem mapM_modify {items : List Json} {results : List α} (h : items.mapM read = some results)
    {item : Json} (hk : items[k]? = some item) :
    ∃ a, read item = some a ∧ results[k]? = some a ∧
      (items.modify k f).mapM read = (read (f item)).map fun b => results.set k b := by
  induction items generalizing results k with
  | nil => cases hk
  | cons first rest ih =>
    rw [List.mapM_cons] at h
    obtain ⟨a, ha, h⟩ := Option.bind_eq_some_iff.mp h
    obtain ⟨later, hl, h⟩ := Option.bind_eq_some_iff.mp h
    cases h
    cases k with
    | zero =>
      cases hk
      refine ⟨a, ha, rfl, ?_⟩
      rw [List.modify_zero_cons, List.mapM_cons, hl]
      cases read (f item) with
      | none => rfl
      | some b => rfl
    | succ k =>
      obtain ⟨b, hb, at_k, edited⟩ := ih hl hk
      refine ⟨b, hb, at_k, ?_⟩
      rw [List.modify_succ_cons, List.mapM_cons, edited, ha]
      cases read (f item) <;> rfl

theorem list?_atItem {j : Json} {results : List α} (h : list? read j = some results) {item : Json}
    (hk : j.item? k = some item) :
    ∃ a, read item = some a ∧ results[k]? = some a ∧
      list? read (j.atItem k f) = (read (f item)).map fun b => results.set k b := by
  cases j with
  | array items => exact mapM_modify h hk
  | _ => cases hk

end

theorem item?_atItem (k : Nat) (f : Json → Json) (j : Json) :
    (j.atItem k f).item? k = (j.item? k).map f := by
  cases j with
  | array items => simp [atItem, item?]
  | _ => rfl

theorem field?_atField (fields : List String) (name : String) (f : Json → Json) (j : Json) :
    (j.atField fields name f).field? fields name = (j.field? fields name).map f := by
  cases j with
  | array items => simp [atField, field?]
  | object members =>
    rw [atField, field?, field?, ← List.map_reverse]
    induction members.reverse with
    | nil => rfl
    | cons m rest ih =>
      rw [List.map_cons, List.lookup_cons, List.lookup_cons, ih]
      by_cases h : m.1 = some name
      · simp [h]
      · simp [beq_eq_false_iff_ne.mpr (Ne.symm h)]
  | _ => rfl

theorem readable_object_iff {members : List (String × Json)} {level : Nat} :
    (ofMembers members).isReadable level = true ↔
      level < maxDepth ∧ ∀ m ∈ members, m.2.isReadable (level + 1) = true := by
  have plain : (ofMembers members).isPlain = true ↔ ∀ m ∈ members, m.2.isPlain = true :=
    arePlainMembers_iff members
  have depth : (ofMembers members).depth =
      depthMembers (members.map fun m => (some m.1, m.2)) + 1 := rfl
  simp only [isReadable, Bool.and_eq_true, decide_eq_true_eq]
  rw [plain, depth]
  constructor
  · rintro ⟨plain, deep⟩
    refine ⟨by omega, fun m hm => ⟨plain m hm, ?_⟩⟩
    have inside : m.2.depth ≤ depthMembers (members.map fun m => (some m.1, m.2)) :=
      @depth_le_members _ (some m.1, m.2) (List.mem_map.mpr ⟨m, hm, rfl⟩)
    omega
  · rintro ⟨deep, each⟩
    refine ⟨fun m hm => (each m hm).1, ?_⟩
    have inside : depthMembers (members.map fun m => (some m.1, m.2)) ≤ maxDepth - (level + 1) :=
      depthMembers_le fun m hm => by
        have := (each m hm).2
        omega
    omega

theorem readable_array_iff {items : List Json} {level : Nat} :
    (array items).isReadable level = true ↔
      level < maxDepth ∧ ∀ item ∈ items, item.isReadable (level + 1) = true := by
  simp only [isReadable, Bool.and_eq_true, decide_eq_true_eq]
  rw [isPlain, arePlainItems_iff, depth]
  constructor
  · rintro ⟨plain, deep⟩
    refine ⟨by omega, fun item hi => ⟨plain item hi, ?_⟩⟩
    have inside := depth_le_items hi
    omega
  · rintro ⟨deep, each⟩
    refine ⟨fun item hi => (each item hi).1, ?_⟩
    have inside := @depthItems_le items (maxDepth - (level + 1)) fun item hi => by
      have := (each item hi).2
      omega
    omega

theorem named_of_readable {members : List (Option String × Json)} {level : Nat}
    (h : (object members).isReadable level = true) :
    ∃ named, object members = ofMembers named := by
  rw [isReadable, Bool.and_eq_true] at h
  obtain ⟨named, hn⟩ := members?_of_plain h.1
  exact ⟨named, ofMembers_of_members? hn⟩

theorem readable_without {j : Json} {level : Nat} (h : j.isReadable level = true)
    (name : String) : (j.without name).isReadable level = true := by
  cases j with
  | object members =>
    obtain ⟨named, whole⟩ := named_of_readable h
    rw [whole] at h ⊢
    obtain ⟨deep, each⟩ := readable_object_iff.mp h
    rw [without_ofMembers]
    exact readable_object_iff.mpr ⟨deep, fun m hm => each m (List.mem_of_mem_filter hm)⟩
  | _ => exact h

theorem readable_item {j item : Json} {level k : Nat} (h : j.isReadable level = true)
    (hk : j.item? k = some item) : item.isReadable (level + 1) = true := by
  cases j with
  | array items => exact (readable_array_iff.mp h).2 item (List.mem_of_getElem? hk)
  | _ => cases hk

theorem readable_field {j value : Json} {level : Nat} {fields : List String} {name : String}
    (h : j.isReadable level = true) (hf : j.field? fields name = some value) :
    value.isReadable (level + 1) = true := by
  cases j with
  | array items => exact (readable_array_iff.mp h).2 value (List.mem_of_getElem? hf)
  | object members =>
    obtain ⟨named, whole⟩ := named_of_readable h
    rw [whole] at h hf
    rw [field?_ofMembers] at hf
    exact (readable_object_iff.mp h).2 _ (List.mem_reverse.mp (mem_of_lookup hf))
  | _ => cases hf

end Json

end SieveRules
