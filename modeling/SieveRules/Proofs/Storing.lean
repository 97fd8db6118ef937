import SieveRules.Proofs.Layout
/-!
A filter that is stored reads back as itself. The strict way of reading takes the value of the text
as it stands, the lenient one settles it first; neither loses anything of it.
-/

namespace SieveRules

variable {f : Json → Json} (hf : Json.Rearranges f)

def Rule.stored (rule : Rule) : StoredRule :=
  ⟨some rule.id, rule.toPolicy⟩

theorem Json.array_fits {α : Type} {encode : α → Json} {levels : Nat}
    (h : ∀ a, Json.Fits levels (encode a)) (items : List α) :
    Json.Fits (levels + 1) (.array (items.map encode)) := by
  refine .array ?_
  intro item hi
  obtain ⟨a, -, rfl⟩ := List.mem_map.mp hi
  exact h a

theorem Rule.toJson_fits (rule : Rule) : Json.Fits 5 rule.toJson := by
  have conditions := Json.array_fits Condition.toJson_fits rule.conditions
  have actions := Json.array_fits Action.toJson_fits rule.actions
  refine .members ?_
  simp [Json.fits_ofString, Json.Fits.bool, Json.fits_ofWord, actions, conditions.mono]

include hf

theorem Json.list?_rearranged {α β : Type} {item : Json → Option β} {encode : α → Json} {kept : α → β}
    (h : ∀ a, item (f (encode a)) = some (kept a)) (items : List α) :
    list? item (f (.array (items.map encode))) = some (items.map kept) := by
  rw [hf.array, List.map_map]
  exact mapM_map item (f ∘ encode) h items

theorem Rule.decode?_toJson (rule : Rule) {level : Nat} (hl : level + 5 ≤ Json.maxDepth) :
    StoredRule.decode? level (f rule.toJson) = some rule.stored := by
  have distinct : StoredRule.fields.Nodup := by decide
  obtain ⟨others, ho, carried⟩ : ∃ others, f rule.toJson = .ofMembers others ∧
      Json.Carries f others [("id", .ofString rule.id.text), ("active", .bool rule.active),
        ("combinator", .ofWord rule.combinator),
        ("conditions", .array (rule.conditions.map Condition.toJson)),
        ("actions", .array (rule.actions.map Action.toJson))] := hf.carries distinct
  have record := carried.record? (.refl StoredRule.fields)
  have conditions := Json.list?_rearranged hf
    (fun condition => Condition.decode?_toJson hf condition (by omega : level + 2 + 2 ≤ Json.maxDepth))
    rule.conditions
  have actions := Json.list?_rearranged hf
    (fun action => Action.decodeItem?_toJson hf action (by omega : level + 2 + 3 ≤ Json.maxDepth))
    rule.actions
  have look := carried.lookup
  rw [ho, StoredRule.decode?, record]
  simp [fieldOr, look, Dictionary.lookup_cons_if, hf.ofString, hf.bool, hf.ofWord,
    Json.string?_ofString, Json.bool?_bool, Json.word?_ofWord, conditions, actions, Rule.stored]

omit hf

theorem CapabilitySet.toJson_fits (set : CapabilitySet) : Json.Fits 1 set.toJson := by
  refine .members ?_
  intro m hm
  obtain ⟨entry, -, rfl⟩ := List.mem_map.mp hm
  exact .bool entry.2

theorem CapabilitySet.flags_of_perm {set : CapabilitySet} {others : List (String × Json)}
    (h : others.Perm (set.flags.entries.map fun e => (e.1, Json.bool e.2))) :
    ∃ flags : List (String × Bool), others = flags.map (fun e => (e.1, Json.bool e.2)) ∧
      Dictionary.ofList flags = set.flags := by
  refine ⟨others.map fun m => (m.1, m.2.bool?.getD false), ?_, ?_⟩
  · rw [List.map_map]
    refine ((List.map_congr_left fun m hm => ?_).trans (List.map_id _)).symm
    obtain ⟨entry, -, rfl⟩ := List.mem_map.mp (h.mem_iff.mp hm)
    rfl
  · apply Dictionary.ofList_of_perm
    have perm := h.map fun m => (m.1, m.2.bool?.getD false)
    rw [List.map_map] at perm
    exact perm.trans (.of_eq (List.map_id _))

include hf

theorem CapabilitySet.toJson_members (set : CapabilitySet) :
    ∃ flags : List (String × Bool),
      f set.toJson = .ofMembers (flags.map fun e => (e.1, Json.bool e.2)) ∧
        Dictionary.ofList flags = set.flags := by
  have distinct : ((set.flags.entries.map fun e => (e.1, Json.bool e.2)).map Prod.fst).Nodup := by
    rw [List.map_map]
    exact set.flags.distinct
  obtain ⟨others, ho, carried⟩ := hf.carries distinct
  have perm := carried.perm
  rw [List.map_map] at perm
  simp only [Function.comp_def, hf.bool] at perm
  obtain ⟨flags, rfl, same⟩ := flags_of_perm perm
  exact ⟨flags, ho, same⟩

theorem CapabilitySet.decode?_toJson (set : CapabilitySet) : decode? (f set.toJson) = some set := by
  obtain ⟨flags, ho, same⟩ := set.toJson_members hf
  have read := mapM_map_self (fun m : String × Json => m.2.bool?.map fun on => (m.1, on))
    (fun e : String × Bool => (e.1, Json.bool e.2)) (fun _ => rfl) flags
  calc decode? (f set.toJson)
      = ((flags.map fun e : String × Bool => (e.1, Json.bool e.2)).mapM
          fun m : String × Json => m.2.bool?.map fun on => (m.1, on)).bind
            fun flags => some ⟨.ofList flags⟩ := by
        rw [ho, decode?, Json.members?_ofMembers]
        rfl
    _ = some set := by rw [read, Option.bind_some, same]

omit hf

theorem CapabilitySet.decodeFlags_map (flags : List (String × Bool)) :
    decodeFlags (flags.map fun e => (e.1, Json.bool e.2)) = (flags, []) := by
  induction flags with
  | nil => rfl
  | cons e rest ih =>
    rw [List.map_cons, decodeFlags, ih]
    rfl

include hf

theorem CapabilitySet.decodeField_toJson (set : CapabilitySet) :
    decodeField (some (f set.toJson)) = (set, []) := by
  obtain ⟨flags, ho, same⟩ := set.toJson_members hf
  have listed := Json.members?_ofMembers (flags.map fun e => (e.1, Json.bool e.2))
  rw [ho]
  unfold Json.ofMembers at listed ⊢
  simp only [decodeField, listed, Option.getD_some, decodeFlags_map, same]

omit hf

include hf

theorem StoredRule.decodeItems_toJson (rules : List Rule) (index : Nat) :
    decodeItems index (rules.map fun rule => f rule.toJson) = (rules.map Rule.stored, []) := by
  induction rules generalizing index with
  | nil => rfl
  | cons rule rest ih =>
    have read := Rule.decode?_toJson hf rule (by decide : 2 + 5 ≤ Json.maxDepth)
    rw [List.map_cons, decodeItems, ih, read]
    rfl

theorem StoredRule.decodeField_toJson (rules : List Rule) :
    decodeField (some (f (.array (rules.map Rule.toJson)))) = (rules.map Rule.stored, []) := by
  rw [hf.array, List.map_map]
  exact decodeItems_toJson hf rules 0

omit hf

theorem StoredRule.nameAll_stored (rules : List Rule) (source : IdSource) :
    nameAll source (rules.map Rule.stored) = (rules, source) := by
  induction rules with
  | nil => rfl
  | cons rule rest ih =>
    rw [List.map_cons, nameAll]
    simp only [named, Rule.stored, ih]
    rfl

namespace RuleSet

def stored (set : RuleSet) : StoredRuleSet :=
  ⟨set.rules.map Rule.stored, set.extensions⟩

theorem named_stored (set : RuleSet) (source : IdSource) :
    set.stored.named source = (set, source) := by
  simp only [stored, StoredRuleSet.named, StoredRule.nameAll_stored]

theorem toJson_fits (set : RuleSet) : Json.Fits 7 set.toJson := by
  have rules := Json.array_fits Rule.toJson_fits set.rules
  have extensions := set.extensions.toJson_fits
  refine .members ?_
  simp [rules, extensions.mono]

include hf

theorem toJson_carries (set : RuleSet) :
    ∃ others, f set.toJson = .ofMembers others ∧ Json.Carries f others
      [("rules", .array (set.rules.map Rule.toJson)), ("extensions", set.extensions.toJson)] :=
  hf.carries (by decide : ["rules", "extensions"].Nodup)

theorem decode?_toJson (set : RuleSet) :
    StoredRuleSet.decode? (f set.toJson) = some set.stored := by
  obtain ⟨others, ho, carried⟩ := toJson_carries hf set
  have look := carried.lookup
  have rules := Json.list?_rearranged hf
    (fun rule => Rule.decode?_toJson hf rule (by decide : 2 + 5 ≤ Json.maxDepth)) set.rules
  rw [ho, StoredRuleSet.decode?, carried.record? (.refl ["rules", "extensions"])]
  simp [fieldOr, look, Dictionary.lookup_cons_if, rules, CapabilitySet.decode?_toJson hf,
    stored]

theorem recover_toJson (set : RuleSet) :
    StoredRuleSet.recover (some (f set.toJson)) = (set.stored, []) := by
  obtain ⟨others, ho, carried⟩ := toJson_carries hf set
  have listed := Json.members?_ofMembers others
  have rules : others.lookup "rules" = some (f (.array (set.rules.map Rule.toJson))) :=
    carried.lookup "rules"
  have extensions : others.lookup "extensions" = some (f set.extensions.toJson) :=
    carried.lookup "extensions"
  rw [ho]
  unfold Json.ofMembers at listed ⊢
  simp only [StoredRuleSet.recover, listed, Option.getD_some, rules, extensions,
    StoredRule.decodeField_toJson hf, CapabilitySet.decodeField_toJson hf]
  rfl

omit hf

theorem readSettled?_encode (set : RuleSet) :
    Json.readSettled? set.encode = some set.toJson.settle := by
  have read : Json.read? set.encode = some set.toJson := set.toJson_fits.read?_pretty
  have readable := set.toJson_fits.readable (by decide : 0 + 7 ≤ Json.maxDepth)
  rw [Json.readSettled?, read, Option.filter_some, if_pos readable, Option.map_some]

theorem renameRepeated_distinct {seen : List RuleId} {rules : List Rule}
    (fresh : ∀ id ∈ seen, id ∉ rules.map (·.id)) (distinct : (rules.map (·.id)).Nodup)
    (source : IdSource) : renameRepeated seen source rules = (rules, 0, source) := by
  induction rules generalizing seen with
  | nil => rfl
  | cons rule rest ih =>
    obtain ⟨apart, later⟩ := List.nodup_cons.mp distinct
    have new : rule.id ∉ seen := fun hm => fresh rule.id hm List.mem_cons_self
    have kept : ∀ id ∈ rule.id :: seen, id ∉ rest.map (·.id) := by
      intro id hm
      rcases List.mem_cons.mp hm with rfl | hm
      · exact apart
      · exact fun hr => fresh id hm (List.mem_cons_of_mem _ hr)
    rw [renameRepeated, if_neg new, ih kept later]

theorem ensureUniqueIds_distinct {set : RuleSet} (h : set.ids.Nodup) (source : IdSource) :
    set.ensureUniqueIds source = (0, set, source) := by
  have kept : renameRepeated [] source set.rules = (set.rules, 0, source) :=
    renameRepeated_distinct (by simp) h source
  rw [ensureUniqueIds, kept]

/-- A stored filter reads back as itself, strictly and leniently; the lenient way only gives fresh
names where names are repeated, and tells nothing else. -/
theorem stored_reads_back (set : RuleSet) (source : IdSource) :
    decodeStrict? set.encode source = some (set, source) ∧
    (decode set.encode source =
      let (count, unique, source') := set.ensureUniqueIds source
      ((unique, source'), if count = 0 then [] else [.idsRenamed count])) ∧
    (set.ids.Nodup → decode set.encode source = ((set, source), [])) := by
  have lenient : decode set.encode source =
      let (count, unique, source') := set.ensureUniqueIds source
      ((unique, source'), if count = 0 then [] else [.idsRenamed count]) := by
    simp only [decode, readSettled?_encode, recover_toJson .settle, named_stored,
      List.nil_append]
  refine ⟨?_, lenient, ?_⟩
  · have read : Json.read? set.encode = some set.toJson := set.toJson_fits.read?_pretty
    have decoded : StoredRuleSet.decode? set.toJson = some set.stored := decode?_toJson .id set
    rw [decodeStrict?, decodeText?, read, Option.bind_some, decoded, Option.map_some, named_stored]
  · intro distinct
    rw [lenient, ensureUniqueIds_distinct distinct]
    rfl

/-- Strings that have to be escaped, characters beyond 16 bits, and the greatest number. -/
def escaping : RuleSet :=
  ⟨[⟨⟨true, .anyof,
      [.envelope "" .pattern .domain "part" ["\"", "\\u0022", "\x00\x1f\n\t", "😀"],
        .size .smaller "no \"size\"", .present []],
      [.fileinto "" true false ["\\Seen"], .vacation (some 4294967295) (some "") "\u2028\x7b",
        .deleteheader "X" none (some 0) true (some .is) (some "\x08\x0c\r/")]⟩, ⟨"$1"⟩⟩,
    ⟨⟨false, .allof, [.never], [.stop]⟩, ⟨"\x7f"⟩⟩],
    ⟨(Dictionary.empty.insert "x-\"own\"" true).insert "" false⟩⟩

theorem escaping_reads_back : escaping.ids.Nodup ∧
    decodeStrict? escaping.encode (.startingAt 1) = some (escaping, .startingAt 1) ∧
    decode escaping.encode (.startingAt 1) = ((escaping, .startingAt 1), []) := by
  have distinct : escaping.ids.Nodup := by decide
  obtain ⟨strict, -, lenient⟩ := stored_reads_back escaping (.startingAt 1)
  exact ⟨distinct, strict, lenient distinct⟩

end RuleSet

end SieveRules
