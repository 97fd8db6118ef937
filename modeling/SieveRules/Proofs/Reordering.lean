import SieveRules.Proofs.UniqueIds
/-!
Moving rules. A move exchanges two neighbours or changes nothing, a move back undoes it, and however
often rules are moved none is lost. The one exception is the highest index of all: the place after
it has no index, so a rule can not be moved down from it, and where there are rules that fails.
-/

namespace SieveRules

section

variable {α : Type} {items before after : List α} {a b : α} {k : Nat}

theorem neighbours_of_lt (h : k + 1 < items.length) :
    ∃ before a b after, items = before ++ a :: b :: after ∧ before.length = k := by
  refine ⟨items.take k, items[k], items[k + 1], items.drop (k + 1 + 1), ?_, ?_⟩
  · rw [← List.drop_eq_getElem_cons, ← List.drop_eq_getElem_cons, List.take_append_drop]
  · exact List.length_take_of_le (by omega)

theorem exchange?_next (hk : before.length = k) :
    exchange? (before ++ a :: b :: after) k (k + 1) = some (before ++ b :: a :: after) := by
  subst hk
  simp [exchange?, List.set_append_right]

theorem exchange?_previous (hk : before.length = k) :
    exchange? (before ++ a :: b :: after) (k + 1) k = some (before ++ b :: a :: after) := by
  subst hk
  simp [exchange?, List.set_append_right]

theorem exchange?_outside {i j : Nat} (h : items.length ≤ i ∨ items.length ≤ j) :
    exchange? items i j = none := by
  unfold exchange?
  split
  · rename_i x y hi hj
    have first := (List.getElem?_eq_some_iff.mp hi).1
    have second := (List.getElem?_eq_some_iff.mp hj).1
    omega
  · rfl

end

namespace RuleSet

/-- The rule at a place and the one behind it have changed places, and nothing else has changed. -/
inductive Exchanged (k : Nat) : RuleSet → RuleSet → Prop where
  | neighbours {before after : List Rule} {a b : Rule} {extensions : CapabilitySet}
      (h : before.length = k) :
      Exchanged k ⟨before ++ a :: b :: after, extensions⟩ ⟨before ++ b :: a :: after, extensions⟩

variable {set other : RuleSet} {index : UInt64}

theorem Exchanged.symm {k : Nat} (h : Exchanged k set other) : Exchanged k other set := by
  cases h with
  | neighbours h => exact .neighbours h

theorem Exchanged.length {k : Nat} (h : Exchanged k set other) : k + 1 < set.rules.length := by
  cases h with
  | neighbours h =>
    rw [List.length_append, List.length_cons, List.length_cons]
    omega

theorem exists_exchanged {k : Nat} (h : k + 1 < set.rules.length) :
    ∃ other, Exchanged k set other := by
  obtain ⟨rules, extensions⟩ := set
  obtain ⟨before, a, b, after, rfl, length⟩ := neighbours_of_lt h
  exact ⟨_, .neighbours length⟩

theorem previous_toNat (positive : index.toNat ≠ 0) : (index - 1).toNat = index.toNat - 1 := by
  have one : (1 : UInt64) ≤ index := by
    rw [UInt64.le_iff_toNat_le]
    exact Nat.one_le_iff_ne_zero.mpr positive
  exact UInt64.toNat_sub_of_le index 1 one

theorem next_toNat (fits : index.toNat + 1 < UInt64.size) :
    (index + 1).toNat = index.toNat + 1 := by
  rw [UInt64.toNat_add]
  exact Nat.mod_eq_of_lt fits

theorem next_highest (highest : index.toNat + 1 = UInt64.size) : (index + 1).toNat = 0 := by
  rw [UInt64.toNat_add]
  exact (congrArg (· % 2 ^ 64) highest).trans (Nat.mod_self _)

theorem moveUp_exchanged (positive : index.toNat ≠ 0) (h : Exchanged (index.toNat - 1) set other) :
    set.moveUp index = (true, other) := by
  have nonzero : index ≠ 0 := by
    rintro rfl
    exact positive rfl
  have place : index.toNat = index.toNat - 1 + 1 := by omega
  cases h with
  | neighbours length =>
    rw [moveUp, if_neg nonzero, previous_toNat positive, place, Nat.add_sub_cancel,
      exchange?_previous length]

theorem moveUp_stays (h : index.toNat = 0 ∨ set.rules.length ≤ index.toNat) :
    set.moveUp index = (false, set) := by
  by_cases zero : index = 0
  · rw [moveUp, if_pos zero]
  · have positive : index.toNat ≠ 0 := fun h => zero (UInt64.toNat_inj.mp h)
    rw [moveUp, if_neg zero, exchange?_outside (.inl (h.resolve_left positive))]

theorem moveDown_exchanged (fits : index.toNat + 1 < UInt64.size)
    (h : Exchanged index.toNat set other) : set.moveDown index = .ok (true, other) := by
  have inside : ¬ set.rules.length ≤ index.toNat + 1 := Nat.not_le.mpr h.length
  cases h with
  | neighbours length =>
    simp only at inside
    simp only [moveDown, next_toNat fits, if_neg inside, exchange?_next length]

theorem moveDown_stays (fits : index.toNat + 1 < UInt64.size)
    (h : set.rules.length ≤ index.toNat + 1) : set.moveDown index = .ok (false, set) := by
  rw [← next_toNat fits] at h
  simp only [moveDown, if_pos h]

/-- The place after the highest index is taken for the first. -/
theorem moveDown_highest (highest : index.toNat + 1 = UInt64.size)
    (length : set.rules.length < UInt64.size) :
    set.moveDown index = if set.rules = [] then .ok (false, set) else .error .outOfRange := by
  by_cases bare : set.rules = []
  · have short : set.rules.length ≤ (index + 1).toNat := by
      rw [bare]
      exact Nat.zero_le _
    simp only [moveDown, if_pos short, if_pos bare]
  · have inside : ¬ set.rules.length ≤ (index + 1).toNat := by
      rw [next_highest highest, Nat.le_zero, List.length_eq_zero_iff]
      exact bare
    have outside : set.rules.length ≤ index.toNat := by omega
    simp only [moveDown, if_neg inside, if_neg bare, exchange?_outside (.inl outside)]

inductive Move where
  | up (index : UInt64)
  | down (index : UInt64)
  deriving DecidableEq, Repr

def Move.perform (set : RuleSet) : Move → Except IndexFault (Bool × RuleSet)
  | up index => .ok (set.moveUp index)
  | down index => set.moveDown index

/-- Performs moves one after the other, as long as none fails. -/
def moveAll (set : RuleSet) : List Move → Except IndexFault RuleSet
  | [] => .ok set
  | move :: rest =>
    match move.perform set with
    | .ok (_, next) => next.moveAll rest
    | .error fault => .error fault

theorem moveUp_keeps (set : RuleSet) (index : UInt64) :
    (set.moveUp index).2.rules.Perm set.rules ∧
      (set.moveUp index).2.extensions = set.extensions := by
  unfold moveUp
  split
  · exact ⟨.refl _, rfl⟩
  · split
    · rename_i rules exchanged
      exact ⟨exchange?_perm exchanged, rfl⟩
    · exact ⟨.refl _, rfl⟩

theorem moveDown_keeps {moved : Bool} (h : set.moveDown index = .ok (moved, other)) :
    other.rules.Perm set.rules ∧ other.extensions = set.extensions := by
  simp only [moveDown] at h
  split at h
  · cases h
    exact ⟨.refl _, rfl⟩
  · split at h
    · rename_i rules exchanged
      cases h
      exact ⟨exchange?_perm exchanged, rfl⟩
    · cases h

theorem Move.perform_keeps {move : Move} {moved : Bool}
    (h : move.perform set = .ok (moved, other)) :
    other.rules.Perm set.rules ∧ other.extensions = set.extensions := by
  cases move with
  | up index =>
    have kept := set.moveUp_keeps index
    rwa [Except.ok.inj h] at kept
  | down index => exact moveDown_keeps h

theorem moveAll_keeps {moves : List Move} (h : set.moveAll moves = .ok other) :
    other.rules.Perm set.rules ∧ other.extensions = set.extensions := by
  induction moves generalizing set with
  | nil =>
    cases h
    exact ⟨.refl _, rfl⟩
  | cons move rest ih =>
    rw [moveAll] at h
    split at h
    · rename_i moved next first
      obtain ⟨rules, extensions⟩ := Move.perform_keeps first
      obtain ⟨laterRules, laterExtensions⟩ := ih h
      exact ⟨laterRules.trans rules, laterExtensions.trans extensions⟩
    · cases h

def highestIndex : UInt64 := .ofNat (UInt64.size - 1)

theorem fits_or_highest (index : UInt64) :
    index.toNat + 1 < UInt64.size ∨ index = highestIndex := by
  by_cases highest : index.toNat + 1 = UInt64.size
  · right
    rw [highestIndex, ← highest, Nat.add_sub_cancel, UInt64.ofNat_toNat]
  · left
    have bound := index.toNat_lt_size
    omega

theorem moveDown_ok (fits : index.toNat + 1 < UInt64.size) :
    ∃ moved other, set.moveDown index = .ok (moved, other) := by
  rcases Nat.lt_or_ge (index.toNat + 1) set.rules.length with inside | outside
  · obtain ⟨other, h⟩ := exists_exchanged inside
    exact ⟨_, _, moveDown_exchanged fits h⟩
  · exact ⟨_, _, moveDown_stays fits outside⟩

theorem Move.perform_ok_iff {move : Move} (length : set.rules.length < UInt64.size) :
    (∃ moved other, move.perform set = .ok (moved, other)) ↔
      set.rules = [] ∨ move ≠ .down highestIndex := by
  cases move with
  | up index => exact iff_of_true ⟨_, _, rfl⟩ (.inr Move.noConfusion)
  | down index =>
    rcases fits_or_highest index with fits | rfl
    · refine iff_of_true (moveDown_ok fits) (.inr ?_)
      rintro ⟨⟩
      exact absurd fits (by decide)
    · have last := @moveDown_highest set highestIndex (by decide) length
      by_cases bare : set.rules = []
      · rw [if_pos bare] at last
        exact iff_of_true ⟨_, _, last⟩ (.inl bare)
      · rw [if_neg bare] at last
        refine iff_of_false ?_ (not_or.mpr ⟨bare, fun differs => differs rfl⟩)
        rintro ⟨moved, other, h⟩
        cases last.symm.trans h

theorem moveAll_ok_iff {moves : List Move} (length : set.rules.length < UInt64.size) :
    (∃ other, set.moveAll moves = .ok other) ↔
      set.rules = [] ∨ .down highestIndex ∉ moves := by
  induction moves generalizing set with
  | nil => exact iff_of_true ⟨set, rfl⟩ (.inr List.not_mem_nil)
  | cons move rest ih =>
    have first := @Move.perform_ok_iff set move length
    rw [moveAll, List.mem_cons, not_or]
    cases hm : move.perform set with
    | ok result =>
      obtain ⟨moved, next⟩ := result
      obtain ⟨kept, -⟩ := Move.perform_keeps hm
      have empty : next.rules = [] ↔ set.rules = [] := by
        rw [← List.length_eq_zero_iff, kept.length_eq, List.length_eq_zero_iff]
      have succeeds := first.mp ⟨moved, next, hm⟩
      refine (ih (kept.length_eq ▸ length)).trans ?_
      rw [empty]
      constructor
      · rintro (bare | later)
        · exact .inl bare
        · exact succeeds.imp_right fun differs => ⟨Ne.symm differs, later⟩
      · exact Or.imp_right And.right
    | error fault =>
      refine iff_of_false ?_ ?_
      · rintro ⟨other, h⟩
        cases h
      · intro fine
        obtain ⟨moved, other, h⟩ := first.mpr (fine.imp_right fun h => Ne.symm h.1)
        cases hm.symm.trans h

/-- A move up exchanges a rule with the one before it where both are there, and a move down with the
one behind it; else nothing changes. A move back undoes this. All this holds wherever the index has
one after it. From the highest index a move down fails, unless there are no rules, so a run of moves
comes to an end where it has no such move, and then has kept all rules. -/
theorem moves_exchange_neighbours (set : RuleSet) (index : UInt64) (moves : List Move) :
    (0 < index.toNat ∧ index.toNat < set.rules.length ∧
        (∃ other, set.moveUp index = (true, other) ∧ Exchanged (index.toNat - 1) set other ∧
          other.moveDown (index - 1) = .ok (true, set)) ∨
      ¬ (0 < index.toNat ∧ index.toNat < set.rules.length) ∧ set.moveUp index = (false, set)) ∧
    (index ≠ highestIndex →
      index.toNat + 1 < set.rules.length ∧
          (∃ other, set.moveDown index = .ok (true, other) ∧ Exchanged index.toNat set other ∧
            other.moveUp (index + 1) = (true, set)) ∨
        ¬ index.toNat + 1 < set.rules.length ∧ set.moveDown index = .ok (false, set)) ∧
    (set.rules.length < UInt64.size →
      set.moveDown highestIndex =
          (if set.rules = [] then .ok (false, set) else .error .outOfRange) ∧
        ((∃ other, set.moveAll moves = .ok other) ↔
          set.rules = [] ∨ .down highestIndex ∉ moves)) ∧
    ∀ other, set.moveAll moves = .ok other →
      other.rules.Perm set.rules ∧ other.extensions = set.extensions := by
  refine ⟨?_, ?_, ?_, fun other => moveAll_keeps⟩
  · by_cases inside : 0 < index.toNat ∧ index.toNat < set.rules.length
    · obtain ⟨positive, short⟩ := inside
      have positive : index.toNat ≠ 0 := Nat.ne_of_gt positive
      have before : (index - 1).toNat = index.toNat - 1 := previous_toNat positive
      have bound := index.toNat_lt_size
      obtain ⟨other, h⟩ := @exists_exchanged set (index.toNat - 1) (by omega)
      refine .inl ⟨by omega, short, other, moveUp_exchanged positive h, h, ?_⟩
      exact moveDown_exchanged (by omega) (before ▸ h.symm)
    · refine .inr ⟨inside, moveUp_stays ?_⟩
      omega
  · intro other
    have fits := (fits_or_highest index).resolve_right other
    rcases Nat.lt_or_ge (index.toNat + 1) set.rules.length with inside | outside
    · have behind : (index + 1).toNat = index.toNat + 1 := next_toNat fits
      obtain ⟨other, h⟩ := exists_exchanged inside
      refine .inl ⟨inside, other, moveDown_exchanged fits h, h, ?_⟩
      refine moveUp_exchanged (by omega) ?_
      rw [behind, Nat.add_sub_cancel]
      exact h.symm
    · exact .inr ⟨Nat.not_lt.mpr outside, moveDown_stays fits outside⟩
  · intro length
    exact ⟨moveDown_highest (by decide) length, moveAll_ok_iff length⟩

def trio : RuleSet :=
  ⟨[⟨.initial, ⟨"a"⟩⟩, ⟨.initial, ⟨"b"⟩⟩, ⟨.initial, ⟨"c"⟩⟩], .standard⟩

theorem trio_moved :
    (∃ other, trio.moveDown 1 = .ok (true, other) ∧ Exchanged 1 trio other ∧
      other.moveUp 2 = (true, trio)) ∧
    trio.moveDown 18446744073709551614 = .ok (false, trio) ∧
    ∃ other, trio.moveAll [.down 0, .down 1, .up 18446744073709551615, .up 0] = .ok other ∧
      other.ids = [⟨"b"⟩, ⟨"c"⟩, ⟨"a"⟩] ∧ other.rules.Perm trio.rules ∧
      other.extensions = trio.extensions := by
  obtain ⟨-, down, runs, kept⟩ := moves_exchange_neighbours trio 1
    [.down 0, .down 1, .up 18446744073709551615, .up 0]
  have moved := (down (by decide)).resolve_right fun stays => stays.1 (by decide)
  obtain ⟨-, last, -⟩ := moves_exchange_neighbours trio 18446744073709551614 []
  have edge := (last (by decide)).resolve_left fun inside => absurd inside.1 (by decide)
  obtain ⟨other, ran⟩ := (runs (by decide)).2.mpr (.inr (by decide))
  obtain ⟨rules, extensions⟩ := kept _ ran
  refine ⟨moved.2, edge.2, other, ran, ?_, rules, extensions⟩
  cases ran
  rfl

/-- The only rule of a filter can not be moved down from the highest index, though nothing is there
to be moved. -/
def lone : RuleSet :=
  ⟨[⟨.initial, ⟨"a"⟩⟩], .empty⟩

theorem lone_faults :
    lone.moveDown 18446744073709551615 = .error .outOfRange ∧
    ¬ ∀ (set : RuleSet) (index : UInt64), ∃ moved other,
      set.moveDown index = .ok (moved, other) ∧
        (moved = true ↔ index.toNat + 1 < set.rules.length) := by
  have fault : lone.moveDown 18446744073709551615 = .error .outOfRange := rfl
  refine ⟨fault, ?_⟩
  intro always
  obtain ⟨moved, other, h, -⟩ := always lone 18446744073709551615
  cases fault.symm.trans h

end RuleSet

end SieveRules
