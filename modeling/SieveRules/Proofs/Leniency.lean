import SieveRules.Proofs.UniqueIds
/-!
What is read strictly is read leniently. The lenient way takes a settled copy of the text, so each
reading of a value is held against the reading of the value once it is settled.
-/

namespace SieveRules

/-- What the first of two readings finds, the second finds too. -/
def Keeps {α : Type} (x y : Option α) : Prop :=
  ∀ a, x = some a → y = some a

namespace Keeps

variable {α β γ : Type} {x y : Option α}

theorem refl (x : Option α) : Keeps x x :=
  fun _ h => h

theorem of_none (y : Option α) : Keeps none y := by
  intro a h
  cases h

theorem bind {f g : α → Option β} (h : Keeps x y) (hf : ∀ a, Keeps (f a) (g a)) :
    Keeps (x >>= f) (y >>= g) := by
  intro b hb
  obtain ⟨a, ha, hb⟩ := Option.bind_eq_some_iff.mp hb
  exact Option.bind_eq_some_iff.mpr ⟨a, h a ha, hf a b hb⟩

theorem map (h : Keeps x y) (f : α → β) : Keeps (x.map f) (y.map f) := by
  intro b hb
  obtain ⟨a, ha, hb⟩ := Option.map_eq_some_iff.mp hb
  exact Option.map_eq_some_iff.mpr ⟨a, h a ha, hb⟩

theorem mapM {read : α → Option γ} {other : β → Option γ} {change : α → β}
    (h : ∀ a, Keeps (read a) (other (change a))) (items : List α) :
    Keeps (items.mapM read) ((items.map change).mapM other) := by
  induction items with
  | nil => exact refl _
  | cons a rest ih =>
    rw [List.map_cons, List.mapM_cons, List.mapM_cons]
    exact (h a).bind fun b => ih.bind fun bs => refl _

end Keeps

namespace Json

variable {α : Type}

/-- What is read of a value is read of it once it is settled, too. -/
def Stable (read : Json → Option α) : Prop :=
  ∀ j, Keeps (read j) (read j.settle)

theorem stable_string : Stable string? := by
  intro j
  cases j with
  | string value => exact .refl _
  | _ => exact .of_none _

theorem stable_bool : Stable bool? := by
  intro j
  cases j with
  | bool value => exact .refl _
  | _ => exact .of_none _

theorem Stable.list {item : Json → Option α} (h : Stable item) : Stable (list? item) := by
  intro j
  cases j with
  | array items =>
    rw [settle, settleItems_map]
    exact Keeps.mapM h items
  | _ => exact .of_none _

theorem stable_one_or_many : Stable oneOrMany? := by
  intro j
  cases j with
  | string value => exact .refl _
  | array items => exact stable_string.list (.array items)
  | _ => exact .of_none _

theorem isUnit_settle {access : Access} {j : Json} (h : j.isUnit access = true) :
    j.settle.isUnit access = true := by
  cases j with
  | null => rfl
  | object members =>
    cases members with
    | nil => exact h
    | cons => cases h
  | _ => cases h

theorem stable_word [Vocabulary α] (access : Access) :
    Stable (word? access : Json → Option α) := by
  intro j a h
  cases j with
  | string value => exact h
  | object members =>
    rcases members with _ | ⟨⟨name, value⟩, _ | ⟨more, rest⟩⟩
    · cases h
    · by_cases hu : value.isUnit access = true
      · rw [word?, if_pos hu] at h
        obtain ⟨text, rfl, named⟩ := Option.bind_eq_some_iff.mp h
        change (if value.settle.isUnit access then Vocabulary.exactly? text else none) = some a
        rw [if_pos (isUnit_settle hu), named]
      · rw [word?, if_neg hu] at h
        cases h
    · cases h
  | _ => cases h

theorem knownFields?_settled {fields : List String} (name : String → String)
    {members record : List (String × Json)}
    (h : knownFields? fields (members.map fun m => (name m.1, m.2)) = some record) :
    ∃ others, knownFields? fields
        ((Dictionary.ofList (members.map fun m => (m.1, m.2.settle))).entries.map
          fun m => (name m.1, m.2)) = some others ∧ Carries settle others record := by
  have chosen : ∀ listed : List (String × Json),
      (listed.map fun m => (name m.1, m.2)).filter (fun m => m.1 ∈ fields) =
        (listed.filter fun m => decide (name m.1 ∈ fields)).map fun m => (name m.1, m.2) :=
    fun listed => List.filter_map
  rw [knownFields?] at h
  simp only [chosen] at h
  split at h
  · rename_i distinct
    cases h
    generalize hk : members.filter (fun m => decide (name m.1 ∈ fields)) = kept at distinct ⊢
    have names : (kept.map Prod.fst).Nodup := by
      have renamed : ((kept.map Prod.fst).map name).Nodup := by
        rw [List.map_map] at distinct ⊢
        exact distinct
      exact List.Pairwise.of_map name
        (fun a b (apart : name a ≠ name b) same => apart (congrArg name same)) renamed
    -- the settled members that are known are those that settle the known members
    have perm : ((Dictionary.ofList (members.map fun m => (m.1, m.2.settle))).entries.filter
        fun m => decide (name m.1 ∈ fields)).Perm (kept.map fun m => (m.1, m.2.settle)) := by
      rw [Dictionary.ofList_filter fun n => decide (name n ∈ fields), List.filter_map]
      change (Dictionary.ofList
        ((members.filter fun m => decide (name m.1 ∈ fields)).map _)).entries.Perm _
      rw [hk]
      refine Dictionary.ofList_perm ?_
      rwa [List.map_map]
    have carried : Carries settle
        (((Dictionary.ofList (members.map fun m => (m.1, m.2.settle))).entries.filter
          fun m => decide (name m.1 ∈ fields)).map fun m => (name m.1, m.2))
        (kept.map fun m => (name m.1, m.2)) := by
      refine ⟨?_, distinct⟩
      have renamed := perm.map fun m => (name m.1, m.2)
      rwa [List.map_map] at renamed ⊢
    refine ⟨_, ?_, carried⟩
    rw [knownFields?]
    simp only [chosen]
    rw [if_pos (carried.names.nodup_iff.mpr distinct)]
  · cases h

theorem record?_settled {fields : List String} (hf : fields.Nodup) {j : Json}
    {record : List (String × Json)} (h : j.record? fields = some record) :
    ∃ others, j.settle.record? fields = some others ∧ Carries settle others record := by
  cases j with
  | array items =>
    rw [record?] at h
    split at h
    · rename_i short
      cases h
      refine ⟨fields.zip (items.map settle), ?_, ?_, ?_⟩
      · rw [settle, settleItems_map, record?, List.length_map, if_pos short]
      · rw [List.zip_map_right]
        exact .refl _
      · rw [List.zip_eq_zip_take_min, List.map_fst_zip (by simp)]
        exact hf.sublist (List.take_sublist _ _)
    · cases h
  | object members =>
    obtain ⟨named, hm, hk⟩ := Option.bind_eq_some_iff.mp h
    have unchanged : ∀ listed : List (String × Json),
        listed.map (fun m => (id m.1, m.2)) = listed := List.map_id
    obtain ⟨others, known, carried⟩ := @knownFields?_settled fields id named record
      ((congrArg _ (unchanged named)).trans hk)
    refine ⟨others, ?_, carried⟩
    rw [ofMembers_of_members? hm, settle_ofMembers]
    change (ofMembers _).members?.bind _ = _
    rw [members?_ofMembers, Option.bind_some, ← known, unchanged]
  | _ => cases h

theorem fieldOr_settled {others record : List (String × Json)} (h : Carries settle others record)
    (name : String) (default : α) {value : Json → Option α} (hv : Stable value) :
    Keeps (fieldOr record name default value) (fieldOr others name default value) := by
  unfold fieldOr
  rw [h.lookup]
  cases record.lookup name with
  | none => exact .refl _
  | some j => exact hv j

end Json

namespace Condition

open Json

def fieldName (kind : ConditionKind) (name : String) : String :=
  if kind = .envelope ∧ name = "part" then "header" else name

theorem rename_eq (kind : ConditionKind) (members : List (String × Json)) :
    rename kind members = members.map fun m => (fieldName kind m.1, m.2) := by
  unfold rename
  split
  · rename_i envelope
    refine List.map_congr_left fun m _ => ?_
    simp [fieldName, envelope]
  · rename_i other
    refine ((List.map_congr_left fun m _ => ?_).trans (List.map_id _)).symm
    simp [fieldName, other]

theorem ofRecord?_settled (kind : ConditionKind) {others record : List (String × Json)}
    (h : Carries settle others record) : Keeps (ofRecord? kind record) (ofRecord? kind others) := by
  refine (fieldOr_settled h _ _ stable_string).bind fun comparator => ?_
  refine (fieldOr_settled h _ _ (stable_word .copied)).bind fun matchType => ?_
  refine (fieldOr_settled h _ _ stable_string.list).bind fun keys => ?_
  have name := fieldOr_settled h "header" "" stable_string
  have part := @fieldOr_settled _ _ _ h "addressPart" AddressPart.all _ (stable_word .copied)
  cases kind with
  | header => exact name.bind fun _ => .refl _
  | address => exact part.bind fun _ => name.bind fun _ => .refl _
  | envelope => exact part.bind fun _ => name.bind fun _ => .refl _
  | size =>
    exact (fieldOr_settled h _ _ (stable_word .copied)).bind fun operator =>
      (fieldOr_settled h _ _ stable_string).bind fun limit => .refl _
  | body => exact (fieldOr_settled h _ _ (stable_word .copied)).bind fun transform => .refl _
  | present => exact (fieldOr_settled h _ _ stable_one_or_many).bind fun names => .refl _
  | always => exact .refl _
  | never => exact .refl _

theorem split?_settled {j type rest : Json} (h : split? j = some (type, rest)) :
    split? j.settle = some (type.settle, rest.settle) := by
  cases j with
  | array items =>
    cases items with
    | nil => cases h
    | cons first later =>
      cases h
      rfl
  | object members =>
    obtain ⟨named, hm, h⟩ := Option.bind_eq_some_iff.mp h
    split at h
    · rename_i name type' one
      cases h
      have named_type : (name, type) ∈ named.filter (·.1 = "type") := one ▸ List.mem_cons_self
      obtain rfl : name = "type" := of_decide_eq_true (List.mem_filter.mp named_type).2
      have perm := Dictionary.ofList_filter (fun name => decide (name = "type"))
        (named.map fun m => (m.1, m.2.settle))
      rw [List.filter_map] at perm
      change _ = (Dictionary.ofList ((named.filter (·.1 = "type")).map _)).entries at perm
      rw [one] at perm
      change _ = [("type", type.settle)] at perm
      have other := Dictionary.ofList_filter (fun name => decide (name ≠ "type"))
        (named.map fun m => (m.1, m.2.settle))
      rw [List.filter_map] at other
      rw [ofMembers_of_members? hm, settle_ofMembers, settle_ofMembers, split?_ofMembers perm]
      exact congrArg (fun entries => some (type.settle, Json.ofMembers entries)) other
    · cases h
  | _ => cases h

theorem record?_settled {kind : ConditionKind} {j : Json} {record : List (String × Json)}
    (h : record? kind j = some record) :
    ∃ others, record? kind j.settle = some others ∧ Carries settle others record := by
  have distinct : (fields kind).Nodup := (List.nodup_cons.mp (fields_distinct kind)).2
  cases j with
  | array items =>
    change (Json.array items).record? (fields kind) = some record at h
    exact Json.record?_settled distinct h
  | object members =>
    obtain ⟨renamed, hm, hk⟩ := Option.bind_eq_some_iff.mp h
    obtain ⟨named, hn, rfl⟩ := Option.map_eq_some_iff.mp hm
    rw [rename_eq] at hk
    obtain ⟨others, known, carried⟩ := knownFields?_settled _ hk
    refine ⟨others, ?_, carried⟩
    rw [ofMembers_of_members? hn, settle_ofMembers]
    change ((ofMembers _).members?.map (rename kind)).bind _ = _
    rw [members?_ofMembers, Option.map_some, Option.bind_some, rename_eq, known]
  | _ => cases h

theorem stable_decode (level : Nat) : Stable (decode? level) := by
  intro j condition h
  obtain ⟨⟨type, rest⟩, hs, h⟩ := Option.bind_eq_some_iff.mp h
  obtain ⟨kind, hk, h⟩ := Option.bind_eq_some_iff.mp h
  obtain ⟨name, hn, hk⟩ := Option.bind_eq_some_iff.mp hk
  split at h
  · rename_i readable
    obtain ⟨record, hr, h⟩ := Option.bind_eq_some_iff.mp h
    obtain ⟨others, settled, carried⟩ := record?_settled hr
    simp only [decode?, split?_settled hs, stable_string type name hn, Option.bind_eq_bind,
      Option.bind_some, hk, settle_readable readable, if_true, settled]
    exact ofRecord?_settled kind carried condition h
  · cases h

end Condition

theorem Action.stable_decodeItem (level : Nat) : Json.Stable (decodeItem? level) := by
  intro j action h
  unfold decodeItem? at h ⊢
  split at h
  · rename_i readable
    rw [if_pos (Json.settle_readable readable), Json.settle_settle, h]
  · cases h

theorem StoredRule.stable_decode (level : Nat) : Json.Stable (decode? level) := by
  intro j rule h
  obtain ⟨record, hr, h⟩ := Option.bind_eq_some_iff.mp h
  obtain ⟨others, settled, carried⟩ := Json.record?_settled (by decide) hr
  have own : Json.Stable fun j => j.string?.map fun s => some (RuleId.mk s) :=
    fun j => (Json.stable_string j).map _
  rw [decode?, settled]
  revert h
  apply Keeps.bind (Json.fieldOr_settled carried _ _ own) _ rule
  intro id
  refine (Json.fieldOr_settled carried _ _ Json.stable_bool).bind fun active => ?_
  refine (Json.fieldOr_settled carried _ _ (Json.stable_word .inPlace)).bind fun combinator => ?_
  refine (Json.fieldOr_settled carried _ _ (Condition.stable_decode _).list).bind fun _ => ?_
  exact (Json.fieldOr_settled carried _ _ (Action.stable_decodeItem _).list).bind fun _ => .refl _

theorem StoredRule.decodeItems_settled {items : List Json} {rules : List StoredRule} (index : Nat)
    (h : items.mapM (decode? 2) = some rules) :
    decodeItems index (items.map Json.settle) = (rules, []) := by
  induction items generalizing rules index with
  | nil =>
    cases h
    rfl
  | cons item rest ih =>
    rw [List.mapM_cons] at h
    obtain ⟨rule, hr, h⟩ := Option.bind_eq_some_iff.mp h
    obtain ⟨later, hl, h⟩ := Option.bind_eq_some_iff.mp h
    cases h
    rw [List.map_cons, decodeItems, ih (index + 1) hl, stable_decode 2 item rule hr]

namespace CapabilitySet

theorem flags_of_mapM {members : List (String × Json)} {flags : List (String × Bool)}
    (h : members.mapM (fun m => m.2.bool?.map fun on => (m.1, on)) = some flags) :
    members = flags.map fun e => (e.1, Json.bool e.2) := by
  induction members generalizing flags with
  | nil =>
    cases h
    rfl
  | cons m rest ih =>
    rw [List.mapM_cons] at h
    obtain ⟨flag, hf, h⟩ := Option.bind_eq_some_iff.mp h
    obtain ⟨later, hl, h⟩ := Option.bind_eq_some_iff.mp h
    cases h
    obtain ⟨on, hon, rfl⟩ := Option.map_eq_some_iff.mp hf
    obtain ⟨name, value⟩ := m
    cases value with
    | bool b =>
      cases hon
      rw [ih hl]
      rfl
    | _ => cases hon

theorem decodeField_settled {j : Json} {set : CapabilitySet} (h : decode? j = some set) :
    decodeField (some j.settle) = (set, []) := by
  obtain ⟨members, hm, h⟩ := Option.bind_eq_some_iff.mp h
  obtain ⟨flags, hf, h⟩ := Option.bind_eq_some_iff.mp h
  cases h
  obtain rfl := flags_of_mapM hf
  have settled : (flags.map fun e => (e.1, Json.bool e.2)).map (fun m => (m.1, m.2.settle)) =
      flags.map fun e => (e.1, Json.bool e.2) := by
    rw [List.map_map]
    rfl
  have listed := Json.members?_ofMembers
    ((Dictionary.ofList flags).entries.map fun e => (e.1, Json.bool e.2))
  have same : Dictionary.ofList (Dictionary.ofList flags).entries = Dictionary.ofList flags :=
    Dictionary.ofList_of_perm (.refl _)
  rw [Json.ofMembers_of_members? hm, Json.settle_ofMembers, settled,
    Dictionary.ofList_map Json.bool flags]
  unfold Json.ofMembers at listed ⊢
  simp only [decodeField, listed, Option.getD_some, decodeFlags_map, same]

end CapabilitySet

theorem StoredRule.decodeField_settled {record : List (String × Json)} {rules : List StoredRule}
    (h : fieldOr record "rules" [] (Json.list? (decode? 2)) = some rules) :
    decodeField ((record.lookup "rules").map Json.settle) = (rules, []) := by
  unfold fieldOr at h
  cases hl : record.lookup "rules" with
  | none =>
    rw [hl] at h
    cases h
    rfl
  | some j =>
    rw [hl] at h
    cases j with
    | array items =>
      rw [Option.map_some, Json.settle, Json.settleItems_map]
      exact decodeItems_settled 0 h
    | _ => cases h

theorem Json.lookup_knownFields {fields : List String} {members record : List (String × Json)}
    (h : knownFields? fields members = some record) {name : String} (hn : name ∈ fields) :
    record.lookup name = members.lookup name := by
  unfold knownFields? at h
  dsimp only at h
  split at h
  · cases h
    rw [Dictionary.lookup_filter fun name => decide (name ∈ fields), decide_eq_true hn, if_pos rfl]
  · cases h

namespace StoredRuleSet

/-- A filter that is read strictly from an object is found leniently in the settled object, and
nothing is passed over. -/
theorem recover_settled {members : List (Option String × Json)} {stored : StoredRuleSet}
    (h : decode? (.object members) = some stored) :
    recover (some (Json.object members).settle) = (stored, []) := by
  obtain ⟨record, hr, h⟩ := Option.bind_eq_some_iff.mp h
  obtain ⟨rules, hrules, h⟩ := Option.bind_eq_some_iff.mp h
  obtain ⟨extensions, hextensions, h⟩ := Option.bind_eq_some_iff.mp h
  cases h
  obtain ⟨named, hm, -⟩ := Option.bind_eq_some_iff.mp hr
  obtain ⟨others, settled, carried⟩ := Json.record?_settled (by decide) hr
  rw [Json.ofMembers_of_members? hm, Json.settle_ofMembers] at settled ⊢
  generalize (Dictionary.ofList (named.map fun m => (m.1, m.2.settle))).entries = entries at settled
  have listed := Json.members?_ofMembers entries
  have known : Json.knownFields? ["rules", "extensions"] entries = some others := by
    change (Json.ofMembers entries).members?.bind _ = _ at settled
    rwa [listed, Option.bind_some] at settled
  have look : ∀ name ∈ ["rules", "extensions"],
      entries.lookup name = (record.lookup name).map Json.settle := by
    intro name hn
    rw [← Json.lookup_knownFields known hn, carried.lookup]
  have found : CapabilitySet.decodeField ((record.lookup "extensions").map Json.settle) =
      (extensions, []) := by
    unfold fieldOr at hextensions
    cases hl : record.lookup "extensions" with
    | none =>
      rw [hl] at hextensions
      cases hextensions
      rfl
    | some j =>
      rw [hl] at hextensions
      exact CapabilitySet.decodeField_settled hextensions
  unfold Json.ofMembers at listed ⊢
  simp only [recover, listed, Option.getD_some, look "rules" (by decide),
    look "extensions" (by decide), StoredRule.decodeField_settled hrules, found]
  rfl

end StoredRuleSet

namespace RuleSet

theorem renameRepeated_none {seen : List RuleId} {source : IdSource} {rules : List Rule}
    (h : (renameRepeated seen source rules).2.1 = 0) :
    (∀ rule ∈ rules, rule.id ∉ seen) ∧ (rules.map (·.id)).Nodup := by
  induction rules generalizing seen source with
  | nil => exact ⟨fun _ h => absurd h List.not_mem_nil, .nil⟩
  | cons rule rest ih =>
    by_cases hr : rule.id ∈ seen
    · rw [renameRepeated_repeated hr] at h
      exact absurd h (Nat.succ_ne_zero _)
    · rw [renameRepeated_first hr] at h
      obtain ⟨apart, distinct⟩ := ih h
      refine ⟨List.forall_mem_cons.mpr ⟨hr, ?_⟩, List.nodup_cons.mpr ⟨?_, distinct⟩⟩
      · exact fun other ho hs => apart other ho (List.mem_cons_of_mem _ hs)
      · intro hm
        obtain ⟨other, ho, same⟩ := List.mem_map.mp hm
        exact apart other ho (same ▸ List.mem_cons_self)

theorem ensureUniqueIds_count {set : RuleSet} {source : IdSource} :
    (set.ensureUniqueIds source).1 = 0 ↔ set.ids.Nodup := by
  constructor
  · intro h
    exact (@renameRepeated_none [] source set.rules h).2
  · intro distinct
    rw [ensureUniqueIds_distinct distinct]

theorem decode_of_strict {text : String} {stored : StoredRuleSet}
    {members : List (Option String × Json)}
    (untyped : Json.readSettled? text = some (.object members))
    (strict : decodeText? StoredRuleSet.decode? text = some stored) :
    StoredRuleSet.recover (Json.readSettled? text) = (stored, []) := by
  obtain ⟨j, hj, hs⟩ := Option.map_eq_some_iff.mp untyped
  obtain ⟨read, -⟩ := Option.filter_eq_some_iff.mp hj
  rw [decodeText?, read, Option.bind_some] at strict
  rw [untyped, ← hs]
  cases j with
  | object => exact StoredRuleSet.recover_settled strict
  | _ => cases hs

/-- A text that reads untyped as an object, and strictly as a filter, reads leniently as the same
filter with its repeated names given anew. Whatever names are given out, both ways have the rules
that the text holds, and name those that have no name of their own. The lenient way tells of
nothing but repeated names, and of these where giving them anew changes the filter. -/
theorem decode_extends_strict (text : String) (members : List (Option String × Json))
    (source source' : IdSource) (set : RuleSet)
    (untyped : Json.readSettled? text = some (.object members))
    (strict : decodeStrict? text source = some (set, source')) :
    ∃ stored : StoredRuleSet, stored.named source = (set, source') ∧
      ∀ first next last named unique count, stored.named first = (named, next) →
        named.ensureUniqueIds next = (count, unique, last) →
          decodeStrict? text first = some (named, next) ∧
          decode text first = ((unique, last), if count = 0 then [] else [.idsRenamed count]) ∧
          (count = 0 ↔ named.ids.Nodup) ∧
          (next.Fresh last.next named.ids → (count = 0 ↔ unique = named)) := by
  obtain ⟨stored, hs, read⟩ := Option.map_eq_some_iff.mp strict
  refine ⟨stored, read, ?_⟩
  intro first next last named unique count hn hu
  have counted : count = 0 ↔ named.ids.Nodup := by
    rw [← @ensureUniqueIds_count named next, hu]
  refine ⟨?_, ?_, counted, ?_⟩
  · rw [decodeStrict?, hs, Option.map_some, hn]
  · simp only [decode, decode_of_strict untyped hs, hn, hu, List.nil_append]
  · intro fresh
    constructor
    · intro none
      have same := ensureUniqueIds_distinct (counted.mp none) next
      rw [hu] at same
      cases same
      rfl
    · rintro rfl
      have distinct := @ensureUniqueIds_nodup next unique
      rw [hu] at distinct
      exact counted.mpr (distinct fresh)

/-- A flag that is given twice, a rule that is an array, a word that is an object, parameters that
are left over, a name that is repeated and one that is missing. -/
def crooked : String :=
  "\x7b\"extensions\":\x7b\"x\":true,\"x\":false\x7d,\"rules\":[[\"a\",true,\x7b\"allof\":null\x7d]," ++
    "\x7b\"id\":\"a\",\"conditions\":[\x7b\"part\":\"To\",\"type\":\"envelope\"\x7d]," ++
    "\"actions\":[\x7b\"type\":\"stop\",\"parameters\":[]\x7d]\x7d,\x7b\x7d]\x7d"

def crookedStored : StoredRuleSet :=
  ⟨[⟨some ⟨"a"⟩, ⟨true, .allof, [], []⟩⟩,
      ⟨some ⟨"a"⟩, ⟨true, .anyof, [.envelope defaultComparator .is .all "To" []], [.stop]⟩⟩,
      ⟨none, ⟨true, .anyof, [], []⟩⟩],
    ⟨Dictionary.empty.insert "x" false⟩⟩

theorem crooked_decoded :
    ∃ members set source' unique last, Json.readSettled? crooked = some (.object members) ∧
      decodeStrict? crooked (.startingAt 1) = some (set, source') ∧
      decode crooked (.startingAt 1) = ((unique, last), [.idsRenamed 1]) ∧
      set.ids.take 2 = [⟨"a"⟩, ⟨"a"⟩] ∧ unique.policies = crookedStored.rules.map (·.policy) ∧
      unique ≠ set := by
  have named : ((Json.readSettled? crooked).bind Json.members?).isSome = true := by
    decide +kernel
  obtain ⟨members, untyped⟩ : ∃ members, Json.readSettled? crooked = some (.object members) := by
    obtain ⟨_, found⟩ := Option.isSome_iff_exists.mp named
    obtain ⟨j, read, some⟩ := Option.bind_eq_some_iff.mp found
    cases j with
    | object members => exact ⟨members, read⟩
    | _ => cases some
  have read : decodeText? StoredRuleSet.decode? crooked = some crookedStored := by
    decide +kernel
  have strict : decodeStrict? crooked (.startingAt 1) =
      some (crookedStored.named (.startingAt 1)) := by
    rw [decodeStrict?, read, Option.map_some]
  obtain ⟨stored, named, all⟩ :=
    decode_extends_strict crooked members (.startingAt 1) _ _ untyped strict
  obtain ⟨again, lenient, -, changes⟩ := all (.startingAt 1) _ _ _ _ 1 named rfl
  have fresh : (crookedStored.named (.startingAt 1)).2.Fresh 2
      (crookedStored.named (.startingAt 1)).1.ids := .one (by decide +kernel)
  refine ⟨members, _, _, _, _, untyped, again, lenient, rfl, rfl, ?_⟩
  intro same
  exact absurd ((changes fresh).mpr same) (by decide)

end RuleSet

end SieveRules
