import SieveRules.Proofs.Regeneration
import SieveRules.Proofs.Storing
/-!
The names of rules stay distinct while a filter is edited, whatever is adopted or reloaded on the way.
All that is asked of the source of names is that a name it gives out is new to the rules at hand.
-/

namespace SieveRules

/-- The names that the source gives out before it comes to the number `stop` are new to some ids, and
no two of them are the same. -/
structure IdSource.Fresh (source : IdSource) (stop : Nat) (ids : List RuleId) : Prop where
  new : ∀ n, source.next ≤ n → n < stop → source.name n ∉ ids
  distinct : ∀ m n, source.next ≤ m → m < n → n < stop → source.name m ≠ source.name n

def IdSource.moved (source : IdSource) (count : Nat) : IdSource :=
  { source with next := source.next + count }

@[simp]
theorem IdSource.moved_next (source : IdSource) (count : Nat) :
    (source.moved count).next = source.next + count :=
  rfl

namespace IdSource.Fresh

variable {source : IdSource} {stop : Nat} {ids : List RuleId}

theorem first (h : source.Fresh stop ids) (hn : source.next < stop) : source.mint.1 ∉ ids :=
  h.new source.next (Nat.le_refl _) hn

theorem later (h : source.Fresh stop ids) :
    source.mint.2.Fresh stop (source.mint.1 :: ids) := by
  constructor
  · intro n hl hs
    have before : source.next < n := hl
    rw [List.mem_cons, not_or]
    exact ⟨(h.distinct source.next n (Nat.le_refl _) before hs).symm, h.new n (by omega) hs⟩
  · intro m n hl hm hs
    have before : source.next < m := hl
    exact h.distinct m n (by omega) hm hs

theorem one (h : source.mint.1 ∉ ids) : source.Fresh (source.next + 1) ids := by
  constructor
  · intro n hl hs
    obtain rfl : n = source.next := by omega
    exact h
  · intro m n hl hm hs
    omega

theorem mono {others : List RuleId} (h : source.Fresh stop ids) (hs : others ⊆ ids) :
    source.Fresh stop others :=
  ⟨fun n hl hn hm => h.new n hl hn (hs hm), h.distinct⟩

end IdSource.Fresh

theorem IdSource.Fresh.until {source : IdSource} {stop stop' : Nat} {ids : List RuleId}
    (h : source.Fresh stop ids) (hs : stop' ≤ stop) : source.Fresh stop' ids :=
  ⟨fun n hl hn => h.new n hl (by omega), fun m n hl hm hn => h.distinct m n hl hm (by omega)⟩

namespace RuleSet

section

variable {seen : List RuleId} {source : IdSource} {rule : Rule} {rest : List Rule}

theorem renameRepeated_repeated (h : rule.id ∈ seen) :
    renameRepeated seen source (rule :: rest) =
      ({ rule with id := source.mint.1 } ::
          (renameRepeated (source.mint.1 :: seen) source.mint.2 rest).1,
        (renameRepeated (source.mint.1 :: seen) source.mint.2 rest).2.1 + 1,
        (renameRepeated (source.mint.1 :: seen) source.mint.2 rest).2.2) := by
  rw [renameRepeated, if_pos h]

theorem renameRepeated_first (h : rule.id ∉ seen) :
    renameRepeated seen source (rule :: rest) =
      (rule :: (renameRepeated (rule.id :: seen) source rest).1,
        (renameRepeated (rule.id :: seen) source rest).2.1,
        (renameRepeated (rule.id :: seen) source rest).2.2) := by
  rw [renameRepeated, if_neg h]

end

variable {seen : List RuleId} {source : IdSource} {rules : List Rule}

theorem renameRepeated_source (seen : List RuleId) (source : IdSource) (rules : List Rule) :
    (renameRepeated seen source rules).2.2 =
      source.moved (renameRepeated seen source rules).2.1 := by
  induction rules generalizing seen source with
  | nil => rfl
  | cons rule rest ih =>
    by_cases h : rule.id ∈ seen
    · rw [renameRepeated_repeated h, ih]
      simp only [IdSource.moved, IdSource.mint, Nat.add_assoc, Nat.add_comm 1]
    · rw [renameRepeated_first h, ih]

theorem renameRepeated_policies (seen : List RuleId) (source : IdSource) (rules : List Rule) :
    (renameRepeated seen source rules).1.map Rule.toPolicy = rules.map Rule.toPolicy := by
  induction rules generalizing seen source with
  | nil => rfl
  | cons rule rest ih =>
    by_cases h : rule.id ∈ seen
    · rw [renameRepeated_repeated h, List.map_cons, List.map_cons, ih]
    · rw [renameRepeated_first h, List.map_cons, List.map_cons, ih]

theorem fresh_renamed {rule : Rule} {rest : List Rule} (hr : rule.id ∈ seen)
    (fresh : source.Fresh (renameRepeated seen source (rule :: rest)).2.2.next
      (seen ++ (rule :: rest).map (·.id))) :
    source.mint.1 ∉ seen ++ (rule :: rest).map (·.id) ∧
    source.mint.2.Fresh (renameRepeated (source.mint.1 :: seen) source.mint.2 rest).2.2.next
      ((source.mint.1 :: seen) ++ rest.map (·.id)) := by
  have stop := renameRepeated_source (source.mint.1 :: seen) source.mint.2 rest
  have ahead : source.next < (renameRepeated seen source (rule :: rest)).2.2.next := by
    rw [renameRepeated_repeated hr, stop]
    simp only [IdSource.moved, IdSource.mint]
    omega
  refine ⟨fresh.first ahead, ?_⟩
  rw [renameRepeated_repeated hr] at fresh
  refine fresh.later.mono ?_
  intro id hid
  simp only [List.cons_append, List.map_cons, List.mem_cons, List.mem_append] at hid ⊢
  rcases hid with hid | hid | hid
  · exact .inl hid
  · exact .inr (.inl hid)
  · exact .inr (.inr (.inr hid))

theorem fresh_kept {rule : Rule} {rest : List Rule} (hr : rule.id ∉ seen)
    (fresh : source.Fresh (renameRepeated seen source (rule :: rest)).2.2.next
      (seen ++ (rule :: rest).map (·.id))) :
    source.Fresh (renameRepeated (rule.id :: seen) source rest).2.2.next
      ((rule.id :: seen) ++ rest.map (·.id)) := by
  rw [renameRepeated_first hr] at fresh
  refine fresh.mono ?_
  intro id hid
  simp only [List.cons_append, List.map_cons, List.mem_cons, List.mem_append] at hid ⊢
  rcases hid with hid | hid | hid
  · exact .inr (.inl hid)
  · exact .inl hid
  · exact .inr (.inr hid)

theorem renameRepeated_nodup
    (fresh : source.Fresh (renameRepeated seen source rules).2.2.next
      (seen ++ rules.map (·.id))) :
    ((renameRepeated seen source rules).1.map (·.id)).Nodup ∧
      ∀ id ∈ (renameRepeated seen source rules).1.map (·.id), id ∉ seen := by
  induction rules generalizing seen source with
  | nil => simp [renameRepeated]
  | cons rule rest ih =>
    by_cases hr : rule.id ∈ seen
    · obtain ⟨new, later⟩ := fresh_renamed hr fresh
      obtain ⟨distinct, apart⟩ := ih later
      rw [renameRepeated_repeated hr, List.map_cons]
      refine ⟨List.nodup_cons.mpr ⟨fun hm => apart _ hm List.mem_cons_self, distinct⟩, ?_⟩
      intro id hid
      rcases List.mem_cons.mp hid with rfl | hid
      · exact fun hs => new (List.mem_append_left _ hs)
      · exact fun hs => apart id hid (List.mem_cons_of_mem _ hs)
    · obtain ⟨distinct, apart⟩ := ih (fresh_kept hr fresh)
      rw [renameRepeated_first hr, List.map_cons]
      refine ⟨List.nodup_cons.mpr ⟨fun hm => apart _ hm List.mem_cons_self, distinct⟩, ?_⟩
      intro id hid
      rcases List.mem_cons.mp hid with rfl | hid
      · exact hr
      · exact fun hs => apart id hid (List.mem_cons_of_mem _ hs)

theorem renameRepeated_keeps {before after : List Rule} {rule : Rule}
    (fresh : source.Fresh (renameRepeated seen source (before ++ rule :: after)).2.2.next
      (seen ++ (before ++ rule :: after).map (·.id)))
    (hb : rule.id ∉ seen ++ before.map (·.id)) :
    (renameRepeated seen source (before ++ rule :: after)).1[before.length]? = some rule := by
  induction before generalizing seen source with
  | nil =>
    rw [List.nil_append, renameRepeated_first (by simpa using hb)]
    rfl
  | cons other before ih =>
    have parts : rule.id ∉ seen ∧ rule.id ≠ other.id ∧ rule.id ∉ before.map (·.id) := by
      simpa using hb
    obtain ⟨unseen, differs, later⟩ := parts
    rw [List.cons_append] at fresh ⊢
    by_cases hr : other.id ∈ seen
    · obtain ⟨new, fresh⟩ := fresh_renamed hr fresh
      have named : rule.id ≠ source.mint.1 := by
        rintro he
        exact new (by simp [← he])
      rw [renameRepeated_repeated hr]
      exact ih fresh (by simp [named, unseen, later])
    · rw [renameRepeated_first hr]
      exact ih (fresh_kept hr fresh) (by simp [differs, unseen, later])

theorem renameRepeated_count
    (fresh : source.Fresh (renameRepeated seen source rules).2.2.next
      (seen ++ rules.map (·.id))) :
    (renameRepeated seen source rules).2.1 =
      (rules.zip (renameRepeated seen source rules).1).countP fun p => p.1 ≠ p.2 := by
  induction rules generalizing seen source with
  | nil => rfl
  | cons rule rest ih =>
    by_cases hr : rule.id ∈ seen
    · obtain ⟨new, later⟩ := fresh_renamed hr fresh
      have changed : rule ≠ { rule with id := source.mint.1 } := by
        intro he
        have same : rule.id = source.mint.1 := congrArg Rule.id he
        exact new (by simp [← same])
      rw [renameRepeated_repeated hr, List.zip_cons_cons,
        List.countP_cons_of_pos (by simpa using changed), ih later]
    · rw [renameRepeated_first hr, List.zip_cons_cons, List.countP_cons_of_neg (by simp),
        ih (fresh_kept hr fresh)]

theorem ensureUniqueIds_nodup {set : RuleSet}
    (fresh : source.Fresh (set.ensureUniqueIds source).2.2.next set.ids) :
    (set.ensureUniqueIds source).2.1.ids.Nodup :=
  (@renameRepeated_nodup [] source set.rules fresh).1

end RuleSet

def RuleSet.storedIds (text : String) : List RuleId :=
  (StoredRuleSet.recover (Json.readSettled? text)).1.rules.filterMap (·.id)

namespace StoredRule

theorem nameAll_source (source : IdSource) (rules : List StoredRule) :
    (nameAll source rules).2 = source.moved (rules.countP (·.id.isNone)) := by
  induction rules generalizing source with
  | nil => rfl
  | cons rule rest ih =>
    rw [nameAll, named]
    cases hi : rule.id with
    | some id =>
      rw [List.countP_cons_of_neg (by simp [hi])]
      exact ih source
    | none =>
      rw [List.countP_cons_of_pos (by simp [hi])]
      refine (ih source.mint.2).trans ?_
      simp only [IdSource.moved, IdSource.mint, Nat.add_assoc, Nat.add_comm 1]

theorem nameAll_ids {source : IdSource} {rules : List StoredRule} {id : RuleId}
    (h : id ∈ (nameAll source rules).1.map (·.id)) :
    id ∈ rules.filterMap (·.id) ∨
      ∃ n, source.next ≤ n ∧ n < (nameAll source rules).2.next ∧ id = source.name n := by
  induction rules generalizing source with
  | nil => cases h
  | cons rule rest ih =>
    rw [nameAll, named] at h ⊢
    cases hi : rule.id with
    | some own =>
      simp only [hi] at h ⊢
      rw [List.filterMap_cons_some hi]
      rcases List.mem_cons.mp h with rfl | h
      · exact .inl List.mem_cons_self
      · exact (ih h).imp_left (List.mem_cons_of_mem _)
    | none =>
      simp only [hi] at h ⊢
      rw [List.filterMap_cons_none hi]
      have moved := nameAll_source source.mint.2 rest
      rcases List.mem_cons.mp h with rfl | h
      · refine .inr ⟨source.next, Nat.le_refl _, ?_, rfl⟩
        rw [moved]
        simp only [IdSource.moved, IdSource.mint]
        omega
      · refine (ih h).imp_right ?_
        rintro ⟨n, hl, hs, rfl⟩
        exact ⟨n, Nat.le_of_succ_le hl, hs, rfl⟩

/-- The names that are left once rules have been named are new to those rules. -/
theorem nameAll_fresh {source : IdSource} {rules : List StoredRule} {stop : Nat}
    (fresh : source.Fresh stop (rules.filterMap (·.id))) :
    (nameAll source rules).2.Fresh stop ((nameAll source rules).1.map (·.id)) := by
  have moved := nameAll_source source rules
  generalize rules.countP (·.id.isNone) = count at moved
  rw [moved]
  constructor
  · intro n hl hn hm
    have ahead : source.next + count ≤ n := hl
    rcases nameAll_ids hm with own | ⟨m, hml, hmn, he⟩
    · exact fresh.new n (by omega) hn own
    · rw [moved] at hmn
      have given : m < source.next + count := hmn
      exact fresh.distinct m n hml (by omega) hn he.symm
  · intro m n hl hm hn
    have ahead : source.next + count ≤ m := hl
    exact fresh.distinct m n (by omega) hm hn

end StoredRule

namespace RuleSet

theorem decode_nodup {text : String} {source source' : IdSource} {set : RuleSet}
    (h : (decode text source).1 = (set, source'))
    (fresh : source.Fresh source'.next (storedIds text)) : set.ids.Nodup := by
  obtain ⟨stored, hs⟩ : ∃ stored, (StoredRuleSet.recover (Json.readSettled? text)).1 = stored :=
    ⟨_, rfl⟩
  rw [storedIds, hs] at fresh
  have read : (decode text source).1 =
      ((stored.named source).1.ensureUniqueIds (stored.named source).2).2 := by
    rw [← hs]
    rfl
  have unique : ((stored.named source).1.ensureUniqueIds (stored.named source).2).2 =
      (set, source') := read.symm.trans h
  have distinct := @ensureUniqueIds_nodup (stored.named source).2 (stored.named source).1
  rw [unique] at distinct
  exact distinct (StoredRule.nameAll_fresh fresh)

theorem decode_encode {set : RuleSet} (h : set.ids.Nodup) (source : IdSource) :
    decode set.encode source = ((set, source), []) := by
  simp only [decode, readSettled?_encode, recover_toJson .settle, named_stored,
    ensureUniqueIds_distinct h]
  rfl

end RuleSet

inductive Edit where
  | add
  | duplicate (id : RuleId)
  | remove (id : RuleId)
  | toggleActive (id : RuleId)
  | toggleCombinator (id : RuleId)
  | moveUp (index : UInt64)
  | moveDown (index : UInt64)
  | ensureUniqueIds
  | adopt (parsed : RuleSet)
  /-- Stores the filter and reads it again. -/
  | reload

namespace Edit

def perform (set : RuleSet) (source : IdSource) : Edit → Except IndexFault (RuleSet × IdSource)
  | add => .ok (set.addRule source).2
  | duplicate id => .ok (set.duplicateRule id source).2
  | remove id => .ok ((set.removeRule id).2, source)
  | toggleActive id => .ok ((set.toggleActive id).2, source)
  | toggleCombinator id => .ok ((set.toggleCombinator id).2, source)
  | moveUp index => .ok ((set.moveUp index).2, source)
  | moveDown index => (set.moveDown index).map fun moved => (moved.2, source)
  | ensureUniqueIds => .ok (set.ensureUniqueIds source).2
  | adopt parsed => .ok (set.adopt parsed source)
  | reload => .ok (RuleSet.decode set.encode source).1

/-- The ids that are at hand where an edit asks for names. -/
def idsAtHand (set : RuleSet) : Edit → List RuleId
  | adopt parsed => parsed.ids
  | _ => set.ids

end Edit

theorem exchange?_perm {α : Type} {items others : List α} {i j : Nat}
    (h : exchange? items i j = some others) : others.Perm items := by
  unfold exchange? at h
  split at h
  · rename_i a b hi hj
    obtain ⟨hil, rfl⟩ := List.getElem?_eq_some_iff.mp hi
    obtain ⟨hjl, rfl⟩ := List.getElem?_eq_some_iff.mp hj
    rw [← Option.some.inj h]
    exact List.set_set_perm hil hjl
  · cases h

theorem updateFirst_ids (id : RuleId) {change : Rule → Rule} (h : ∀ rule, (change rule).id = rule.id)
    (rules : List Rule) : (updateFirst id change rules).map Rule.id = rules.map Rule.id := by
  induction rules with
  | nil => rfl
  | cons rule rest ih =>
    rw [updateFirst]
    split
    · rw [List.map_cons, List.map_cons, h]
    · rw [List.map_cons, List.map_cons, ih]

namespace RuleSet

theorem ids_perm {set other : RuleSet} (h : set.rules.Perm other.rules) (hn : other.ids.Nodup) :
    set.ids.Nodup :=
  (h.map Rule.id).nodup_iff.mpr hn

theorem update_nodup {set : RuleSet} (hn : set.ids.Nodup) (id : RuleId) {change : Rule → Rule}
    (h : ∀ rule, (change rule).id = rule.id) : (set.update id change).2.ids.Nodup := by
  have same : (set.update id change).2.ids = set.ids := updateFirst_ids id h set.rules
  rwa [same]

theorem addRule_nodup {set : RuleSet} {source : IdSource} (hn : set.ids.Nodup)
    (fresh : source.mint.1 ∉ set.ids) : (set.addRule source).2.1.ids.Nodup := by
  have added : (set.addRule source).2.1.ids = set.ids ++ [source.mint.1] := by
    simp [addRule, push, ids, Policy.named]
  rw [added]
  exact (List.perm_append_singleton _ _).nodup_iff.mpr (List.nodup_cons.mpr ⟨fresh, hn⟩)

theorem duplicateRule_nodup {set : RuleSet} {source : IdSource} {id : RuleId} (hn : set.ids.Nodup)
    (fresh : source.Fresh (set.duplicateRule id source).2.2.next set.ids) :
    (set.duplicateRule id source).2.1.ids.Nodup := by
  unfold duplicateRule at fresh ⊢
  split
  · rename_i i rule hp hr
    simp only [hp, hr] at fresh
    have place : i + 1 ≤ set.rules.length := (List.findIdx?_eq_some_iff_findIdx_eq.mp hp).1
    have inserted := (List.perm_insertIdx { rule with id := source.mint.1 } set.rules place).map
      (·.id)
    have new : source.mint.1 ∉ set.ids := fresh.first (Nat.lt_succ_self _)
    exact inserted.nodup_iff.mpr (List.nodup_cons.mpr ⟨new, hn⟩)
  · exact hn

end RuleSet

namespace Edit

/-- Whatever the edit, the names stay distinct. -/
theorem perform_nodup {set set' : RuleSet} {source source' : IdSource} {edit : Edit}
    (hn : set.ids.Nodup) (h : edit.perform set source = .ok (set', source'))
    (fresh : source.Fresh source'.next (edit.idsAtHand set)) : set'.ids.Nodup := by
  cases edit with
  | add =>
    cases h
    exact RuleSet.addRule_nodup hn (fresh.first (Nat.lt_succ_self _))
  | duplicate id =>
    have done : (set.duplicateRule id source).2 = (set', source') := Except.ok.inj h
    have distinct := @RuleSet.duplicateRule_nodup set source id hn
    rw [done] at distinct
    exact distinct fresh
  | remove id =>
    cases h
    exact hn.sublist (List.filter_sublist.map _)
  | toggleActive id | toggleCombinator id =>
    cases h
    exact RuleSet.update_nodup hn id fun _ => rfl
  | moveUp index =>
    cases h
    unfold RuleSet.moveUp
    split
    · exact hn
    · split
      · rename_i rules he
        exact RuleSet.ids_perm (exchange?_perm he) hn
      · exact hn
  | moveDown index =>
    obtain ⟨moved, hm, done⟩ := except_map_ok h
    cases done
    unfold RuleSet.moveDown at hm
    simp only at hm
    split at hm
    · cases hm
      exact hn
    · split at hm
      · rename_i rules he
        cases hm
        exact RuleSet.ids_perm (exchange?_perm he) hn
      · cases hm
  | ensureUniqueIds =>
    have done : (set.ensureUniqueIds source).2 = (set', source') := Except.ok.inj h
    have distinct := @RuleSet.ensureUniqueIds_nodup source set
    rw [done] at distinct
    exact distinct fresh
  | adopt parsed =>
    cases h
    exact RuleSet.ensureUniqueIds_nodup fresh
  | reload =>
    have done : (RuleSet.decode set.encode source).1 = (set', source') := Except.ok.inj h
    rw [RuleSet.decode_encode hn] at done
    cases done
    exact hn

end Edit

/-- The filters that editing comes to, from the one to start with, the empty one or one that was
stored, where the names that are given out are new to the rules at hand. -/
inductive Edited : RuleSet → IdSource → Prop where
  | initial (source : IdSource) : Edited .initial source
  | empty (source : IdSource) : Edited .empty source
  | stored {text : String} {source source' : IdSource} {set : RuleSet}
      (h : (RuleSet.decode text source).1 = (set, source'))
      (fresh : source.Fresh source'.next (RuleSet.storedIds text)) : Edited set source'
  | step {set set' : RuleSet} {source source' : IdSource} (before : Edited set source) (edit : Edit)
      (h : edit.perform set source = .ok (set', source'))
      (fresh : source.Fresh source'.next (edit.idsAtHand set)) : Edited set' source'

theorem Edited.nodup {set : RuleSet} {source : IdSource} (h : Edited set source) :
    set.ids.Nodup := by
  induction h with
  | initial => exact .nil
  | empty => exact .nil
  | stored h fresh => exact RuleSet.decode_nodup h fresh
  | step _ edit h fresh ih => exact edit.perform_nodup ih h fresh

namespace RuleSet

/-- Editing keeps the names of rules distinct, so that a filter that was edited reads back as it was
stored. Making names distinct changes nothing but names, and these only where an earlier rule has
the name; it counts the rules it changes, and a second time there are none. -/
theorem ids_stay_unique :
    (∀ set source, Edited set source →
      set.ids.Nodup ∧ ∀ source', decode set.encode source' = ((set, source'), [])) ∧
    ∀ (set unique : RuleSet) (source source' : IdSource) (count : Nat),
      set.ensureUniqueIds source = (count, unique, source') →
        unique.policies = set.policies ∧ unique.extensions = set.extensions ∧
        (source.Fresh source'.next set.ids →
          unique.ids.Nodup ∧
          (∀ before rule after, set.rules = before ++ rule :: after →
            rule.id ∉ before.map (·.id) → unique.rules[before.length]? = some rule) ∧
          count = ((set.rules.zip unique.rules).countP fun p => p.1 ≠ p.2) ∧
          ∀ later, unique.ensureUniqueIds later = (0, unique, later)) := by
  constructor
  · intro set source edited
    exact ⟨edited.nodup, decode_encode edited.nodup⟩
  · intro set unique source source' count h
    cases h
    refine ⟨renameRepeated_policies [] source set.rules, rfl, ?_⟩
    intro fresh
    have distinct := ensureUniqueIds_nodup fresh
    have counted := @renameRepeated_count [] source set.rules fresh
    refine ⟨distinct, ?_, counted, ensureUniqueIds_distinct distinct⟩
    intro before rule after hr hb
    have split : source.Fresh (renameRepeated [] source set.rules).2.2.next
        ([] ++ set.rules.map (·.id)) := fresh
    have kept := @renameRepeated_keeps [] source before after rule
    rw [hr] at split
    exact hr ▸ kept split hb

/-- Three rules, of which two have one name. -/
def repeated : RuleSet :=
  ⟨[⟨.initial, ⟨"a"⟩⟩, ⟨{ Policy.initial with active := false }, ⟨"a"⟩⟩, ⟨.initial, ⟨"b"⟩⟩],
    .empty⟩

theorem repeated_ids_unique :
    (∃ adopted source₁ set source₂,
      (Edit.adopt repeated).perform .initial (.startingAt 1) = .ok (adopted, source₁) ∧
      (Edit.duplicate ⟨"a"⟩).perform adopted source₁ = .ok (set, source₂) ∧ set.ids.length = 4 ∧
      Edited set source₂ ∧ set.ids.Nodup ∧
      decode set.encode source₂ = ((set, source₂), [])) ∧
    ∃ unique source', repeated.ensureUniqueIds (.startingAt 1) = (1, unique, source') ∧
      (IdSource.startingAt 1).Fresh source'.next repeated.ids ∧
      unique.policies = repeated.policies ∧ unique.ids.Nodup ∧
      unique.rules[0]? = repeated.rules[0]? ∧ unique.rules[2]? = repeated.rules[2]? ∧
      unique.ensureUniqueIds source' = (0, unique, source') := by
  have fresh : (IdSource.startingAt 1).Fresh 1 repeated.ids := .one (by decide +kernel)
  constructor
  · have adopted : Edited _ _ := .step (.initial (.startingAt 1)) (.adopt repeated) rfl fresh
    have edited : Edited _ _ := .step adopted (.duplicate ⟨"a"⟩) rfl (.one (by decide +kernel))
    obtain ⟨distinct, reloaded⟩ := ids_stay_unique.1 _ _ edited
    exact ⟨_, _, _, _, rfl, rfl, rfl, edited, distinct, reloaded _⟩
  · obtain ⟨policies, -, unique⟩ := ids_stay_unique.2 repeated _ (.startingAt 1) _ 1 rfl
    obtain ⟨distinct, kept, -, again⟩ := unique fresh
    exact ⟨_, _, rfl, fresh, policies, distinct, kept [] _ _ rfl (by decide),
      kept (repeated.rules.take 2) _ _ rfl (by decide), again _⟩

end RuleSet

end SieveRules
