import SieveRules.Proofs.JsonText
/-!
Values as a reader takes them that keeps no order of members. Settling a value only rearranges it,
and leaves it readable where it was.
-/

namespace SieveRules

namespace Binary64

theorem floorLog2_bounds (num den : Nat) :
    (num.log2 : Int) - den.log2 - 1 ≤ floorLog2 num den ∧ floorLog2 num den ≤ num.log2 := by
  unfold floorLog2
  dsimp only
  split <;> omega

def roundingExponent (num den : Nat) : Int :=
  max (floorLog2 num den - 52) (-1074)

theorem round_bounds {num den : Nat} (hn : num ≠ 0) (h : num.log2 ≤ 1022) :
    ∃ x, round num den = some x ∧ x.exponent ≤ roundingExponent num den + 1 ∧
      x.significand ≤ roundDiv (num * (power 1 2 (roundingExponent num den)).2)
        (den * (power 1 2 (roundingExponent num den)).1) := by
  have high := (floorLog2_bounds num den).2
  have small : roundingExponent num den ≤ 970 := by
    unfold roundingExponent
    omega
  unfold round
  rw [if_neg hn]
  unfold roundingExponent at small ⊢
  dsimp only
  generalize max (floorLog2 num den - 52) (-1074) = e at small ⊢
  generalize roundDiv (num * (power 1 2 e).2) (den * (power 1 2 e).1) = s
  by_cases hs : s = Nat.pow 2 53
  · refine ⟨⟨Nat.pow 2 52, e + 1⟩, ?_, Int.le_refl _, ?_⟩
    · rw [if_pos hs, if_neg (by dsimp only; omega)]
    · rw [hs]
      exact Nat.pow_le_pow_right (by decide) (by decide)
  · refine ⟨⟨s, e⟩, ?_, ?_, Nat.le_refl _⟩
    · rw [if_neg hs, if_neg (by dsimp only; omega)]
    · dsimp only
      omega

theorem round_isSome {num den : Nat} (h : num.log2 ≤ 1022) : (round num den).isSome = true := by
  by_cases hn : num = 0
  · rw [round, if_pos hn]
    rfl
  · obtain ⟨x, hx, -⟩ := @round_bounds _ den hn h
    rw [hx]
    rfl

theorem roundDiv_le (num den : Nat) : roundDiv num den ≤ num + 1 := by
  have floor := Nat.div_le_self num den
  unfold roundDiv
  dsimp only
  split <;> omega

/-- A 32-bit word has no more than twice as many bits once it is rounded. -/
theorem round_word {n : Nat} (hn : n ≠ 0) (h : n < UInt32.size) :
    ∃ x, round n 1 = some x ∧ x.exponent ≤ 33 ∧ x.significand < Nat.pow 2 86 := by
  have bits : n.log2 < 32 := (Nat.log2_lt hn).mpr h
  obtain ⟨x, hx, he, hs⟩ := @round_bounds n 1 hn (by omega)
  obtain ⟨low, high⟩ := floorLog2_bounds n 1
  have one : (1 : Nat).log2 = 0 := by decide
  rw [one] at low
  refine ⟨x, hx, ?_, ?_⟩
  · unfold roundingExponent at he
    omega
  · have scale : (power 1 2 (roundingExponent n 1)).2 ≤ Nat.pow 2 53 := by
      have lower : -53 ≤ roundingExponent n 1 := by
        unfold roundingExponent
        omega
      unfold power
      split
      · exact Nat.one_le_two_pow
      · exact Nat.pow_le_pow_right (by decide) (by omega)
    calc x.significand ≤ n * (power 1 2 (roundingExponent n 1)).2 + 1 :=
          Nat.le_trans hs (roundDiv_le _ _)
      _ ≤ n * Nat.pow 2 53 + 1 := Nat.succ_le_succ (Nat.mul_le_mul_left n scale)
      _ ≤ UInt32.size * Nat.pow 2 53 + 1 :=
          Nat.succ_le_succ (Nat.mul_le_mul_right _ (Nat.le_of_lt h))
      _ < Nat.pow 2 86 := by decide

theorem scaleTen_zero {x : Binary64} (he : x.exponent ≤ 33) (hs : x.significand < Nat.pow 2 86) :
    (x.scaleTen 0).isSome = true := by
  have one : round (Nat.pow 10 0) 1 = some ⟨Nat.pow 2 52, -52⟩ := by decide
  have below : ¬ 0 ≤ x.exponent + -52 := by omega
  have bits : (x.significand * Nat.pow 2 52).log2 ≤ 1022 := by
    by_cases hz : x.significand * Nat.pow 2 52 = 0
    · rw [hz]
      decide
    · have small : x.significand * Nat.pow 2 52 < 2 ^ 138 :=
        Nat.mul_lt_mul_of_pos_right hs (by decide)
      exact Nat.le_of_lt (Nat.lt_trans ((Nat.log2_lt hz).mpr small) (by decide))
  unfold scaleTen
  rw [if_pos (Int.le_refl 0)]
  split
  · rfl
  · rw [if_pos (by decide)]
    change (x.timesTen 0).isSome = true
    unfold timesTen
    rw [one]
    dsimp only
    unfold power
    rw [if_neg below]
    exact round_isSome bits

end Binary64

theorem JsonNumber.ofNat_approximate {n : Nat} (h : n < UInt32.size) :
    (JsonNumber.ofNat n).approximate.isSome = true := by
  have fits : n < UInt64.size := Nat.lt_trans h (by decide)
  have leads : leading n = (n, 0) := by rw [leading, if_pos fits]
  unfold approximate Binary64.ofDecimal
  simp only [ofNat, leads, extend, Option.getD_none]
  by_cases hn : n = 0
  · subst hn
    decide
  · obtain ⟨x, hx, he, hs⟩ := Binary64.round_word hn h
    rw [hx]
    exact Binary64.scaleTen_zero he hs

namespace Dictionary

variable {α : Type}

theorem eq_of_entries {d e : Dictionary α} (h : d.entries = e.entries) : d = e := by
  cases d
  cases e
  cases h
  rfl

theorem distinct (d : Dictionary α) : (d.entries.map Prod.fst).Nodup := by
  have apart := d.sorted.imp fun {x y : String × α} (h : x.1 < y.1) => String.ne_of_lt h
  exact List.pairwise_map.mpr apart

theorem insertEntry_perm {key : String} {value : α} {entries : List (String × α)}
    (h : key ∉ entries.map Prod.fst) :
    (insertEntry key value entries).Perm ((key, value) :: entries) := by
  induction entries with
  | nil => exact .refl _
  | cons x rest ih =>
    obtain ⟨k, v⟩ := x
    simp only [List.map_cons, List.mem_cons, not_or] at h
    simp only [insertEntry]
    split
    · exact .refl _
    · rw [if_neg h.1]
      exact ((ih h.2).cons _).trans (.swap _ _ _)

theorem foldl_insert_perm {entries : List (String × α)} {d : Dictionary α}
    (h : (entries.map Prod.fst ++ d.entries.map Prod.fst).Nodup) :
    (entries.foldl (fun d e => d.insert e.1 e.2) d).entries.Perm (entries ++ d.entries) := by
  induction entries generalizing d with
  | nil => exact .refl _
  | cons e rest ih =>
    have fresh : e.1 ∉ rest.map Prod.fst ++ d.entries.map Prod.fst := (List.nodup_cons.mp h).1
    have inserted : (d.insert e.1 e.2).entries.Perm (e :: d.entries) :=
      insertEntry_perm fun hm => fresh (List.mem_append_right _ hm)
    have names := ((inserted.map Prod.fst).append_left (rest.map Prod.fst)).trans List.perm_middle
    exact (ih (names.nodup_iff.mpr h)).trans ((inserted.append_left rest).trans List.perm_middle)

theorem ofList_perm {entries : List (String × α)} (h : (entries.map Prod.fst).Nodup) :
    (ofList entries).entries.Perm entries := by
  have perm := @foldl_insert_perm _ entries empty (by simpa [empty] using h)
  rwa [show (empty : Dictionary α).entries = [] from rfl, List.append_nil] at perm

theorem ofList_of_perm {entries : List (String × α)} {d : Dictionary α}
    (h : entries.Perm d.entries) : ofList entries = d := by
  have names : (entries.map Prod.fst).Nodup := (h.map Prod.fst).nodup_iff.mpr d.distinct
  apply eq_of_entries
  refine List.Perm.eq_of_pairwise ?_ (ofList entries).sorted d.sorted ((ofList_perm names).trans h)
  intro x y _ _ hxy hyx
  exact absurd (String.lt_trans hxy hyx) (String.lt_irrefl _)

theorem mem_foldl_insert {entries : List (String × α)} {d : Dictionary α} {e : String × α}
    (h : e ∈ (entries.foldl (fun d e => d.insert e.1 e.2) d).entries) :
    e ∈ entries ∨ e ∈ d.entries := by
  induction entries generalizing d with
  | nil => exact .inr h
  | cons x rest ih =>
    rcases ih h with hr | hd
    · exact .inl (List.mem_cons_of_mem _ hr)
    · rcases mem_insertEntry hd with rfl | hd
      · exact .inl List.mem_cons_self
      · exact .inr hd

theorem mem_ofList {entries : List (String × α)} {e : String × α}
    (h : e ∈ (ofList entries).entries) : e ∈ entries := by
  rcases mem_foldl_insert h with h | h
  · exact h
  · cases h

end Dictionary

namespace Json

theorem arePlainItems_iff (items : List Json) :
    arePlainItems items = true ↔ ∀ item ∈ items, item.isPlain = true := by
  induction items with
  | nil => simp [arePlainItems]
  | cons item rest ih => simp [arePlainItems, ih]

theorem arePlainMembers_iff (members : List (String × Json)) :
    arePlainMembers (members.map fun (name, value) => (some name, value)) = true ↔
      ∀ m ∈ members, m.2.isPlain = true := by
  induction members with
  | nil => simp [arePlainMembers]
  | cons m rest ih => simp [arePlainMembers, ih]

theorem depthItems_le {items : List Json} {levels : Nat}
    (h : ∀ item ∈ items, item.depth ≤ levels) : depthItems items ≤ levels := by
  induction items with
  | nil => exact Nat.zero_le _
  | cons item rest ih =>
    have first := h item List.mem_cons_self
    have later := ih fun b hb => h b (List.mem_cons_of_mem _ hb)
    rw [depthItems]
    omega

theorem depthMembers_le {members : List (String × Json)} {levels : Nat}
    (h : ∀ m ∈ members, m.2.depth ≤ levels) :
    depthMembers (members.map fun (name, value) => (some name, value)) ≤ levels := by
  induction members with
  | nil => exact Nat.zero_le _
  | cons m rest ih =>
    have first := h m List.mem_cons_self
    have later := ih fun b hb => h b (List.mem_cons_of_mem _ hb)
    rw [List.map_cons, depthMembers]
    omega

theorem Fits.plain {levels : Nat} {j : Json} (h : Fits levels j) : j.isPlain = true := by
  induction h with
  | bool => rfl
  | word hn => exact JsonNumber.ofNat_approximate hn
  | text => rfl
  | array _ ih => exact (arePlainItems_iff _).mpr ih
  | members _ ih => exact (arePlainMembers_iff _).mpr ih

theorem Fits.depth_le {levels : Nat} {j : Json} (h : Fits levels j) : j.depth ≤ levels := by
  induction h with
  | bool => exact Nat.zero_le _
  | word => exact Nat.zero_le _
  | text => exact Nat.zero_le _
  | array _ ih => exact Nat.succ_le_succ (depthItems_le ih)
  | members _ ih => exact Nat.succ_le_succ (depthMembers_le ih)

theorem Fits.readable {levels level : Nat} {j : Json} (h : Fits levels j)
    (hl : level + levels ≤ maxDepth) : j.isReadable level = true := by
  have deep := h.depth_le
  rw [isReadable, h.plain, decide_eq_true (by omega)]
  rfl

/-- The change leaves a value as it is, but for the order of members where no name is repeated. -/
structure Rearranges (f : Json → Json) : Prop where
  bool (value : Bool) : f (.bool value) = .bool value
  number (value : JsonNumber) : f (.number value) = .number value
  string (value : Option String) : f (.string value) = .string value
  array (items : List Json) : f (.array items) = .array (items.map f)
  members {members : List (String × Json)} (h : (members.map Prod.fst).Nodup) :
    ∃ others, others.Perm (members.map fun m => (m.1, f m.2)) ∧
      f (.ofMembers members) = .ofMembers others
  fits {levels : Nat} {j : Json} (h : Fits levels j) : Fits levels (f j)

namespace Rearranges

theorem id : Rearranges id where
  bool _ := rfl
  number _ := rfl
  string _ := rfl
  array items := by rw [List.map_id]; rfl
  members _ := ⟨_, .refl _, by simp⟩
  fits h := h

theorem comp {f g : Json → Json} (hg : Rearranges g) (hf : Rearranges f) : Rearranges (g ∘ f) where
  bool value := by rw [Function.comp, hf.bool, hg.bool]
  number value := by rw [Function.comp, hf.number, hg.number]
  string value := by rw [Function.comp, hf.string, hg.string]
  array items := by rw [Function.comp, hf.array, hg.array, List.map_map]
  members {members} h := by
    obtain ⟨others, hp, ho⟩ := hf.members h
    have names := hp.map Prod.fst
    rw [List.map_map] at names
    obtain ⟨last, hq, hl⟩ := hg.members (names.nodup_iff.mpr h)
    have perm := hq.trans (hp.map fun m => (m.1, g m.2))
    rw [List.map_map] at perm
    exact ⟨last, perm, by rw [Function.comp, ho, hl]⟩
  fits h := hg.fits (hf.fits h)

end Rearranges

theorem settleItems_map (items : List Json) : settleItems items = items.map settle := by
  induction items with
  | nil => rfl
  | cons item rest ih => rw [settleItems, ih, List.map_cons]

theorem settleMembers_map (members : List (Option String × Json)) :
    settleMembers members = members.map fun m => (m.1.getD "", m.2.settle) := by
  induction members with
  | nil => rfl
  | cons m rest ih => rw [settleMembers, ih, List.map_cons]

theorem settle_ofMembers (members : List (String × Json)) :
    (ofMembers members).settle =
      ofMembers (Dictionary.ofList (members.map fun m => (m.1, m.2.settle))).entries := by
  rw [ofMembers, settle, settleMembers_map, List.map_map]
  rfl

theorem Fits.settle {levels : Nat} {j : Json} (h : Fits levels j) : Fits levels j.settle := by
  induction h with
  | bool value => exact .bool value
  | word hn => exact .word hn
  | text s => exact .text s
  | @array levels items _ ih =>
    rw [Json.settle, settleItems_map]
    refine .array ?_
    intro item hi
    obtain ⟨first, hf, rfl⟩ := List.mem_map.mp hi
    exact ih first hf
  | @members levels members _ ih =>
    rw [settle_ofMembers]
    refine .members ?_
    intro m hm
    obtain ⟨first, hf, rfl⟩ := List.mem_map.mp (Dictionary.mem_ofList hm)
    exact ih first hf

theorem Rearranges.settle : Rearranges Json.settle where
  bool _ := rfl
  number _ := rfl
  string _ := rfl
  array items := by rw [Json.settle, settleItems_map]
  members {members} h := by
    refine ⟨_, Dictionary.ofList_perm ?_, settle_ofMembers members⟩
    rw [List.map_map]
    exact h
  fits h := h.settle

theorem induction {P : Json → Prop} (null : P .null) (bool : ∀ value, P (.bool value))
    (number : ∀ value, P (.number value)) (string : ∀ value, P (.string value))
    (array : ∀ items, (∀ item ∈ items, P item) → P (.array items))
    (object : ∀ members, (∀ m ∈ members, P m.2) → P (.object members)) (j : Json) : P j :=
  @Json.rec P (fun items => ∀ item ∈ items, P item) (fun members => ∀ m ∈ members, P m.2)
    (fun m => P m.2) null bool number string array object (fun _ h => absurd h List.not_mem_nil)
    (fun _ _ first later => List.forall_mem_cons.mpr ⟨first, later⟩)
    (fun _ h => absurd h List.not_mem_nil)
    (fun _ _ first later => List.forall_mem_cons.mpr ⟨first, later⟩) (fun _ _ h => h) j

theorem mem_settled {members : List (Option String × Json)} {m : String × Json}
    (h : m ∈ (Dictionary.ofList (settleMembers members)).entries) :
    ∃ first ∈ members, m = (first.1.getD "", first.2.settle) := by
  have listed := Dictionary.mem_ofList h
  rw [settleMembers_map] at listed
  obtain ⟨first, hf, rfl⟩ := List.mem_map.mp listed
  exact ⟨first, hf, rfl⟩

theorem settle_settle (j : Json) : j.settle.settle = j.settle := by
  induction j using Json.induction with
  | null | bool | number | string => rfl
  | array items ih =>
    rw [settle, settle, settleItems_map, settleItems_map, List.map_map]
    exact congrArg Json.array (List.map_congr_left ih)
  | object members ih =>
    rw [settle, settle_ofMembers]
    have same : (Dictionary.ofList (settleMembers members)).entries.map
        (fun m => (m.1, m.2.settle)) = (Dictionary.ofList (settleMembers members)).entries := by
      refine (List.map_congr_left fun m hm => ?_).trans (List.map_id _)
      obtain ⟨first, hf, rfl⟩ := mem_settled hm
      exact congrArg (first.1.getD "", ·) (ih first hf)
    rw [same, Dictionary.ofList_of_perm (.refl _)]

theorem plain_of_mem {members : List (Option String × Json)} (h : arePlainMembers members = true)
    {m : Option String × Json} (hm : m ∈ members) : m.2.isPlain = true := by
  induction members with
  | nil => cases hm
  | cons first rest ih =>
    simp only [arePlainMembers, Bool.and_eq_true] at h
    rcases List.mem_cons.mp hm with rfl | hm
    · exact h.1.2
    · exact ih h.2 hm

theorem settle_plain {j : Json} (h : j.isPlain = true) : j.settle.isPlain = true := by
  induction j using Json.induction with
  | null | bool | number | string => exact h
  | array items ih =>
    rw [settle, settleItems_map]
    refine (arePlainItems_iff _).mpr ?_
    intro item hi
    obtain ⟨first, hf, rfl⟩ := List.mem_map.mp hi
    exact ih first hf ((arePlainItems_iff _).mp h first hf)
  | object members ih =>
    rw [settle]
    refine (arePlainMembers_iff _).mpr ?_
    intro m hm
    obtain ⟨first, hf, rfl⟩ := mem_settled hm
    exact ih first hf (plain_of_mem h hf)

theorem depth_le_items {items : List Json} {item : Json} (h : item ∈ items) :
    item.depth ≤ depthItems items := by
  induction items with
  | nil => cases h
  | cons first rest ih =>
    rw [depthItems]
    rcases List.mem_cons.mp h with rfl | h
    · omega
    · have := ih h
      omega

theorem depth_le_members {members : List (Option String × Json)} {m : Option String × Json}
    (h : m ∈ members) : m.2.depth ≤ depthMembers members := by
  induction members with
  | nil => cases h
  | cons first rest ih =>
    rw [depthMembers]
    rcases List.mem_cons.mp h with rfl | h
    · omega
    · have := ih h
      omega

theorem settle_depth (j : Json) : j.settle.depth ≤ j.depth := by
  induction j using Json.induction with
  | null | bool | number | string => exact Nat.le_refl _
  | array items ih =>
    rw [settle, settleItems_map]
    refine Nat.succ_le_succ (depthItems_le ?_)
    intro item hi
    obtain ⟨first, hf, rfl⟩ := List.mem_map.mp hi
    exact Nat.le_trans (ih first hf) (depth_le_items hf)
  | object members ih =>
    rw [settle]
    refine Nat.succ_le_succ (depthMembers_le ?_)
    intro m hm
    obtain ⟨first, hf, rfl⟩ := mem_settled hm
    exact Nat.le_trans (ih first hf) (depth_le_members hf)

theorem settle_readable {level : Nat} {j : Json} (h : j.isReadable level = true) :
    j.settle.isReadable level = true := by
  rw [isReadable, Bool.and_eq_true, decide_eq_true_eq] at h ⊢
  have shallower := j.settle_depth
  exact ⟨settle_plain h.1, by omega⟩

end Json

end SieveRules
