import SieveRules.Layout.Encode
import SieveRules.Layout.Lenient
import SieveRules.Proofs.JsonSettling
/-!
Records of the stored layout. A record is read by looking its fields up, so where no name is
repeated the order of its members does not matter.
-/

namespace SieveRules

section

variable {α β : Type}

theorem mem_of_lookup {entries : List (String × α)} {key : String} {value : α}
    (h : entries.lookup key = some value) : (key, value) ∈ entries := by
  obtain ⟨before, behind, rfl, -⟩ := List.lookup_eq_some_iff.mp h
  simp

theorem lookup_of_mem {entries : List (String × α)} (hn : (entries.map Prod.fst).Nodup)
    {key : String} {value : α} (h : (key, value) ∈ entries) : entries.lookup key = some value := by
  induction entries with
  | nil => cases h
  | cons x rest ih =>
    obtain ⟨k, v⟩ := x
    obtain ⟨fresh, later⟩ := List.nodup_cons.mp hn
    rw [Dictionary.lookup_cons_if]
    rcases List.mem_cons.mp h with same | hr
    · cases same
      rw [if_pos rfl]
    · have other : key ≠ k := by
        rintro rfl
        exact fresh (List.mem_map.mpr ⟨_, hr, rfl⟩)
      rw [if_neg other, ih later hr]

theorem lookup_perm {entries others : List (String × α)} (h : entries.Perm others)
    (hn : (others.map Prod.fst).Nodup) (key : String) : entries.lookup key = others.lookup key := by
  have names : (entries.map Prod.fst).Nodup := (h.map Prod.fst).nodup_iff.mpr hn
  apply Option.ext
  intro value
  constructor
  · intro hl
    exact lookup_of_mem hn (h.mem_iff.mp (mem_of_lookup hl))
  · intro hl
    exact lookup_of_mem names (h.mem_iff.mpr (mem_of_lookup hl))

theorem lookup_map (f : α → β) (entries : List (String × α)) (key : String) :
    (entries.map fun e => (e.1, f e.2)).lookup key = (entries.lookup key).map f := by
  induction entries with
  | nil => rfl
  | cons x rest ih =>
    rw [List.map_cons, Dictionary.lookup_cons_if, Dictionary.lookup_cons_if, ih]
    split <;> rfl

end

namespace Dictionary

variable {α β : Type}

theorem get?_eq_some_iff {d : Dictionary α} {key : String} {value : α} :
    d.get? key = some value ↔ (key, value) ∈ d.entries :=
  ⟨mem_of_lookup, lookup_of_mem d.distinct⟩

theorem entries_nodup (d : Dictionary α) : d.entries.Nodup := by
  refine d.sorted.imp ?_
  rintro x y h rfl
  exact String.lt_irrefl _ h

theorem eq_of_get? {d e : Dictionary α} (h : ∀ key, d.get? key = e.get? key) : d = e := by
  have perm : d.entries.Perm e.entries := by
    rw [List.perm_ext_iff_of_nodup d.entries_nodup e.entries_nodup]
    rintro ⟨key, value⟩
    rw [← get?_eq_some_iff, ← get?_eq_some_iff, h key]
  rw [← ofList_of_perm (.refl d.entries), ofList_of_perm perm]

theorem get?_ofList (entries : List (String × α)) (key : String) :
    (ofList entries).get? key = entries.reverse.lookup key := by
  have found : ∀ d : Dictionary α, (entries.foldl (fun d e => d.insert e.1 e.2) d).get? key =
      (entries.reverse.lookup key).or (d.get? key) := by
    induction entries with
    | nil => exact fun d => rfl
    | cons e rest ih =>
      intro d
      obtain ⟨k, v⟩ := e
      rw [List.foldl_cons, ih, get?_insert, List.reverse_cons, List.lookup_append,
        lookup_cons_if]
      cases rest.reverse.lookup key with
      | some value => rfl
      | none =>
        by_cases hk : key = k
        · simp [hk]
        · simp [hk]
  exact (found empty).trans (Option.or_none)

theorem lookup_filter (p : String → Bool) (entries : List (String × α)) (key : String) :
    (entries.filter fun e => p e.1).lookup key = if p key then entries.lookup key else none := by
  induction entries with
  | nil => simp
  | cons e rest ih =>
    obtain ⟨k, v⟩ := e
    rw [List.filter_cons, lookup_cons_if]
    by_cases hk : key = k
    · subst hk
      by_cases hp : p key = true
      · simp [hp]
      · simp [hp, ih]
    · by_cases hp : p k = true
      · simp [hp, hk, lookup_cons_if, ih]
      · simp [hp, hk, ih]

theorem ofList_filter (p : String → Bool) (entries : List (String × α)) :
    (ofList entries).entries.filter (fun e => p e.1) =
      (ofList (entries.filter fun e => p e.1)).entries := by
  let chosen : Dictionary α := ⟨_, (ofList entries).sorted.filter fun e => p e.1⟩
  have same : chosen = ofList (entries.filter fun e => p e.1) := by
    apply eq_of_get?
    intro key
    have look : chosen.get? key = if p key then (ofList entries).get? key else none :=
      lookup_filter p _ key
    rw [look, get?_ofList, get?_ofList, ← List.filter_reverse, lookup_filter]
  exact congrArg Dictionary.entries same

theorem ofList_map (f : α → β) (entries : List (String × α)) :
    (ofList (entries.map fun e => (e.1, f e.2))).entries =
      (ofList entries).entries.map fun e => (e.1, f e.2) := by
  have sorted : ((ofList entries).entries.map fun e => (e.1, f e.2)).Pairwise
      fun x y => x.1 < y.1 := List.pairwise_map.mpr (ofList entries).sorted
  let changed : Dictionary β := ⟨_, sorted⟩
  have same : ofList (entries.map fun e => (e.1, f e.2)) = changed := by
    apply eq_of_get?
    intro key
    have look : changed.get? key = ((ofList entries).get? key).map f := lookup_map f _ key
    rw [look, get?_ofList, get?_ofList, ← List.map_reverse, lookup_map]
  exact congrArg Dictionary.entries same

end Dictionary

theorem perm_pair {α : Type} {a b : α} {items : List α} (h : items.Perm [a, b]) :
    items = [a, b] ∨ items = [b, a] := by
  match items, h.length_eq with
  | [x, y], _ =>
    have first : x = a ∨ x = b := by simpa using h.mem_iff.mp List.mem_cons_self
    rcases first with rfl | rfl
    · left
      rw [List.singleton_perm_singleton.mp ((List.perm_cons _).mp h)]
    · right
      have swapped := h.trans (.swap _ _ _)
      rw [List.singleton_perm_singleton.mp ((List.perm_cons _).mp swapped)]

theorem mapM_map {α β γ : Type} (read : β → Option γ) (write : α → β) {kept : α → γ}
    (h : ∀ a, read (write a) = some (kept a)) (items : List α) :
    (items.map write).mapM read = some (items.map kept) := by
  induction items with
  | nil => rfl
  | cons a rest ih =>
    rw [List.map_cons, List.mapM_cons, h, ih]
    rfl

theorem mapM_map_self {α β : Type} (read : β → Option α) (write : α → β)
    (h : ∀ a, read (write a) = some a) (items : List α) :
    (items.map write).mapM read = some items := by
  have all := mapM_map read write h items
  rwa [List.map_id'] at all

namespace Json

theorem members?_ofMembers (members : List (String × Json)) :
    (ofMembers members).members? = some members :=
  mapM_map_self (fun m : Option String × Json => m.1.map fun name => (name, m.2))
    (fun m => (some m.1, m.2)) (fun _ => rfl) members

theorem ofMembers_of_members? {j : Json} {members : List (String × Json)}
    (h : j.members? = some members) : j = .ofMembers members := by
  cases j with
  | object listed =>
    refine congrArg Json.object ?_
    change listed.mapM (fun m => m.1.map fun name => (name, m.2)) = some members at h
    induction listed generalizing members with
    | nil =>
      cases h
      rfl
    | cons m rest ih =>
      obtain ⟨name, value⟩ := m
      rw [List.mapM_cons] at h
      obtain ⟨first, hf, h⟩ := Option.bind_eq_some_iff.mp h
      obtain ⟨later, hl, h⟩ := Option.bind_eq_some_iff.mp h
      obtain ⟨text, rfl, rfl⟩ := Option.map_eq_some_iff.mp hf
      cases h
      rw [ih hl]
      rfl
  | _ => cases h

theorem string?_ofString (s : String) : (ofString s).string? = some s := rfl

theorem bool?_bool (value : Bool) : (bool value).bool? = some value := rfl

theorem strings?_ofStrings (items : List String) : (ofStrings items).strings? = some items :=
  mapM_map_self string? ofString string?_ofString items

theorem oneOrMany?_ofStrings (items : List String) : (ofStrings items).oneOrMany? = some items :=
  strings?_ofStrings items

theorem word?_ofWord {α : Type} [Vocabulary α] (access : Access) (a : α) :
    (Json.ofWord a).word? access = some a :=
  Vocabulary.exactly?_word a

theorem word32?_ofNat (n : UInt32) : (ofNat n.toNat).word32? = some n := by
  have small : n.toNat < UInt32.size := n.toNat_lt_size
  change ((some n.toNat).filter (· < UInt32.size)).map UInt32.ofNat = some n
  rw [Option.filter_some, if_pos (decide_eq_true small), Option.map_some, UInt32.ofNat_toNat]

namespace Rearranges

variable {f : Json → Json}

theorem ofString (hf : Rearranges f) (s : String) : f (.ofString s) = .ofString s :=
  hf.string (some s)

theorem ofWord {α : Type} [Vocabulary α] (hf : Rearranges f) (a : α) : f (.ofWord a) = .ofWord a :=
  hf.string _

theorem ofNat (hf : Rearranges f) (n : Nat) : f (.ofNat n) = .ofNat n :=
  hf.number _

theorem ofStrings (hf : Rearranges f) (items : List String) :
    f (.ofStrings items) = .ofStrings items := by
  rw [Json.ofStrings, hf.array, List.map_map]
  exact congrArg Json.array (List.map_congr_left fun s _ => hf.ofString s)

end Rearranges

/-- The members given, each changed and in some order. -/
structure Carries (f : Json → Json) (others members : List (String × Json)) : Prop where
  perm : others.Perm (members.map fun m => (m.1, f m.2))
  distinct : (members.map Prod.fst).Nodup

namespace Carries

variable {f : Json → Json} {others members : List (String × Json)}

theorem lookup (h : Carries f others members) (name : String) :
    others.lookup name = (members.lookup name).map f := by
  rw [lookup_perm h.perm, lookup_map]
  rw [List.map_map]
  exact h.distinct

theorem names (h : Carries f others members) :
    (others.map Prod.fst).Perm (members.map Prod.fst) := by
  have perm := h.perm.map Prod.fst
  rwa [List.map_map] at perm

theorem known (h : Carries f others members) {fields : List String}
    (hs : members.map Prod.fst ⊆ fields) : knownFields? fields others = some others := by
  have all : others.filter (fun m => m.1 ∈ fields) = others := by
    apply List.filter_eq_self.mpr
    intro m hm
    exact decide_eq_true (hs (h.names.mem_iff.mp (List.mem_map_of_mem hm)))
  rw [knownFields?]
  simp only [all]
  rw [if_pos (h.names.nodup_iff.mpr h.distinct)]

theorem record? (h : Carries f others members) {fields : List String}
    (hs : (members.map Prod.fst).Sublist fields) :
    (ofMembers others).record? fields = some others := by
  change (ofMembers others).members?.bind (knownFields? fields) = _
  rw [members?_ofMembers, Option.bind_some, h.known hs.subset]

theorem split {name : String} {value : Json} (h : Carries f others ((name, value) :: members)) :
    others.filter (·.1 = name) = [(name, f value)] ∧
      Carries f (others.filter (·.1 ≠ name)) members := by
  obtain ⟨fresh, distinct⟩ := List.nodup_cons.mp h.distinct
  have apart : ∀ m ∈ members.map fun m => (m.1, f m.2), m.1 ≠ name := by
    intro m hm hn
    obtain ⟨first, hf, rfl⟩ := List.mem_map.mp hm
    exact fresh (List.mem_map.mpr ⟨first, hf, hn⟩)
  have none : (members.map fun m => (m.1, f m.2)).filter (·.1 = name) = [] :=
    List.filter_eq_nil_iff.mpr fun m hm => by simpa using apart m hm
  have all : (members.map fun m => (m.1, f m.2)).filter (·.1 ≠ name) =
      members.map fun m => (m.1, f m.2) :=
    List.filter_eq_self.mpr fun m hm => by simpa using apart m hm
  have one := h.perm.filter fun m => decide (m.1 = name)
  have rest := h.perm.filter fun m => decide (m.1 ≠ name)
  rw [List.map_cons, List.filter_cons_of_pos (by simp), none] at one
  rw [List.map_cons, List.filter_cons_of_neg (by simp), all] at rest
  exact ⟨List.perm_singleton.mp one, rest, distinct⟩

end Carries

theorem Rearranges.carries {f : Json → Json} (hf : Rearranges f) {members : List (String × Json)}
    (hn : (members.map Prod.fst).Nodup) :
    ∃ others, f (.ofMembers members) = .ofMembers others ∧ Carries f others members := by
  obtain ⟨others, hp, ho⟩ := hf.members hn
  exact ⟨others, ho, hp, hn⟩

theorem Fits.mono {levels more : Nat} {j : Json} (h : Fits levels j) (hl : levels ≤ more) :
    Fits more j := by
  induction h generalizing more with
  | bool value => exact .bool value
  | word hn => exact .word hn
  | text s => exact .text s
  | array _ ih =>
    cases more with
    | zero => exact absurd hl (Nat.not_succ_le_zero _)
    | succ more => exact .array fun item hi => ih item hi (Nat.le_of_succ_le_succ hl)
  | members _ ih =>
    cases more with
    | zero => exact absurd hl (Nat.not_succ_le_zero _)
    | succ more => exact .members fun m hm => ih m hm (Nat.le_of_succ_le_succ hl)

theorem fits_ofStrings (levels : Nat) (items : List String) : Fits (levels + 1) (ofStrings items) := by
  refine .array ?_
  intro item hi
  obtain ⟨s, -, rfl⟩ := List.mem_map.mp hi
  exact .text s

theorem Carries.fits {f : Json → Json} {others members : List (String × Json)}
    (h : Carries f others members) (hf : Rearranges f) {levels : Nat}
    (hm : ∀ m ∈ members, Fits levels m.2) : Fits (levels + 1) (.ofMembers others) := by
  refine .members ?_
  intro m ho
  obtain ⟨first, hp, rfl⟩ := List.mem_map.mp (h.perm.mem_iff.mp ho)
  exact hf.fits (hm first hp)

theorem fits_ofString (levels : Nat) (s : String) : Fits levels (ofString s) :=
  .text s

theorem fits_ofWord {α : Type} [Vocabulary α] (levels : Nat) (a : α) : Fits levels (.ofWord a) :=
  .text _

theorem fits_ofNat (levels : Nat) (n : UInt32) : Fits levels (.ofNat n.toNat) :=
  .word n.toNat_lt_size

end Json

end SieveRules
