import SieveRules.Proofs.Leniency
import SieveRules.Proofs.Repair
/-!
What is left of a stored filter that is damaged. Every item of its list of rules is a rule of the
filter or a warning with its place; every member of its extensions is a flag or a warning with its
name; and no part of the text that is amiss changes what is made of another one.
-/

namespace SieveRules

namespace Json

/-- The members of the object that a text is, in the order of the text. A text that is something
else, or that cannot be read in whole, has none. -/
def objectMembers? (text : String) : Option (List (String × Json)) :=
  ((read? text).filter (·.isReadable 0)).bind members?

def last? (members : List (String × Json)) (name : String) : Option Json :=
  members.reverse.lookup name

def isNull : Json → Bool
  | null => true
  | _ => false

def isArray : Json → Bool
  | array _ => true
  | _ => false

def isObject : Json → Bool
  | object _ => true
  | _ => false

/-- There is a value, but it is neither null nor of the shape that is asked for. -/
def isMisshapen (fits : Json → Bool) (field : Option Json) : Bool :=
  field.any fun j => !j.isNull && !fits j

def itemsOf : Option Json → List Json
  | some (array items) => items
  | _ => []

def membersOf (field : Option Json) : List (String × Json) :=
  (field.bind members?).getD []

theorem members?_of_plain {members : List (Option String × Json)}
    (h : (object members).isPlain = true) : ∃ named, (object members).members? = some named := by
  change arePlainMembers members = true at h
  change ∃ named, members.mapM (fun m => m.1.map fun name => (name, m.2)) = some named
  induction members with
  | nil => exact ⟨[], rfl⟩
  | cons m rest ih =>
    obtain ⟨name, value⟩ := m
    simp only [arePlainMembers, Bool.and_eq_true] at h
    obtain ⟨text, rfl⟩ := Option.isSome_iff_exists.mp h.1.1
    obtain ⟨named, hn⟩ := ih h.2
    refine ⟨(text, value) :: named, ?_⟩
    rw [List.mapM_cons, hn]
    rfl

theorem bool?_settle (j : Json) : j.settle.bool? = j.bool? := by
  cases j <;> rfl

theorem bool?_eq_some_iff {j : Json} {on : Bool} : j.bool? = some on ↔ j = .bool on := by
  cases j <;> simp [bool?]

theorem get?_settled (members : List (String × Json)) (name : String) :
    (Dictionary.ofList (members.map fun m => (m.1, m.2.settle))).get? name =
      (last? members name).map settle := by
  rw [Dictionary.get?_ofList, ← List.map_reverse, lookup_map, last?]

theorem plain_of_last? {members : List (String × Json)} (h : (ofMembers members).isPlain = true)
    {name : String} {j : Json} (hj : last? members name = some j) : j.isPlain = true := by
  have listed := (arePlainMembers_iff members).mp h
  exact listed (name, j) (List.mem_reverse.mp (mem_of_lookup hj))

theorem objectMembers?_plain {text : String} {members : List (String × Json)}
    (h : objectMembers? text = some members) {name : String} {j : Json}
    (hj : last? members name = some j) : j.isPlain = true := by
  obtain ⟨whole, hw, hm⟩ := Option.bind_eq_some_iff.mp h
  have readable := (Option.filter_eq_some_iff.mp hw).2
  rw [isReadable, Bool.and_eq_true] at readable
  exact plain_of_last? (ofMembers_of_members? hm ▸ readable.1) hj

end Json

namespace StoredRule

def ofItem? (item : Json) : Option StoredRule :=
  decode? 2 item.settle

def droppedFrom (index : Nat) (items : List Json) : List Nat :=
  ((items.zipIdx index).filter fun p => (ofItem? p.1).isNone).map Prod.snd

section

variable {item : Json} (index : Nat) (rest : List Json)

theorem droppedFrom_rule {rule : StoredRule} (h : ofItem? item = some rule) :
    droppedFrom index (item :: rest) = droppedFrom (index + 1) rest := by
  simp [droppedFrom, h]

theorem droppedFrom_other (h : ofItem? item = none) :
    droppedFrom index (item :: rest) = index :: droppedFrom (index + 1) rest := by
  simp [droppedFrom, h]

end

theorem decodeItems_eq (items : List Json) (index : Nat) :
    decodeItems index (items.map Json.settle) =
      (items.filterMap ofItem?, (droppedFrom index items).map .ruleDropped) := by
  induction items generalizing index with
  | nil => rfl
  | cons item rest ih =>
    rw [List.map_cons, decodeItems, ih (index + 1), ← ofItem?]
    cases hi : ofItem? item with
    | some rule => rw [droppedFrom_rule index rest hi, List.filterMap_cons_some hi]
    | none => rw [droppedFrom_other index rest hi, List.filterMap_cons_none hi, List.map_cons]

theorem length_add_dropped (items : List Json) (index : Nat) :
    (items.filterMap ofItem?).length + (droppedFrom index items).length = items.length := by
  induction items generalizing index with
  | nil => rfl
  | cons item rest ih =>
    have later := ih (index + 1)
    cases hi : ofItem? item with
    | some rule =>
      rw [droppedFrom_rule index rest hi, List.filterMap_cons_some hi, List.length_cons,
        List.length_cons]
      omega
    | none =>
      rw [droppedFrom_other index rest hi, List.filterMap_cons_none hi, List.length_cons,
        List.length_cons]
      omega

theorem decodeField_eq (field : Option Json) :
    decodeField (field.map Json.settle) =
      ((Json.itemsOf field).filterMap ofItem?,
        (if Json.isMisshapen Json.isArray field then [.rulesNotAList] else []) ++
          (droppedFrom 0 (Json.itemsOf field)).map .ruleDropped) := by
  cases field with
  | none => rfl
  | some j =>
    cases j with
    | array items =>
      rw [Option.map_some, Json.settle, Json.settleItems_map]
      exact decodeItems_eq items 0
    | _ => rfl

end StoredRule

namespace CapabilitySet

theorem decodeFlags_eq (members : List (String × Json)) :
    decodeFlags members =
      (members.filterMap fun m => m.2.bool?.map fun on => (m.1, on),
        (members.filter fun m => m.2.bool?.isNone).map fun m => .flagIgnored m.1 m.2) := by
  induction members with
  | nil => rfl
  | cons m rest ih =>
    rw [decodeFlags, ih]
    cases hb : m.2.bool? <;> simp [hb]

section

variable (members : List (String × Json))

theorem mem_settled {name : String} {value : Json} :
    (name, value) ∈ (Dictionary.ofList (members.map fun m => (m.1, m.2.settle))).entries ↔
      (Json.last? members name).map Json.settle = some value := by
  rw [← Dictionary.get?_eq_some_iff, Json.get?_settled]

theorem flags_settled (name : String) (on : Bool) :
    (Dictionary.ofList ((Dictionary.ofList
        (members.map fun m => (m.1, m.2.settle))).entries.filterMap fun m =>
          m.2.bool?.map fun on => (m.1, on))).get? name = some on ↔
      Json.last? members name = some (.bool on) := by
  generalize hd : Dictionary.ofList (members.map fun m => (m.1, m.2.settle)) = settled
  have names : ((settled.entries.filterMap fun m => m.2.bool?.map fun on => (m.1, on)).map
      Prod.fst).Nodup := by
    refine settled.distinct.sublist ?_
    rw [List.map_filterMap]
    have chosen : ∀ entries : List (String × Json), (entries.filterMap fun m =>
        (m.2.bool?.map fun on => (m.1, on)).map Prod.fst).Sublist (entries.map Prod.fst) := by
      intro entries
      induction entries with
      | nil => exact .slnil
      | cons m rest ih =>
        cases hm : m.2.bool? with
        | none =>
          simp only [List.filterMap_cons, hm, Option.map_none]
          exact ih.cons _
        | some on =>
          simp only [List.filterMap_cons, hm, Option.map_some]
          exact ih.cons_cons _
    exact chosen settled.entries
  rw [Dictionary.get?_eq_some_iff, (Dictionary.ofList_perm names).mem_iff, List.mem_filterMap]
  constructor
  · rintro ⟨⟨other, value⟩, hm, hv⟩
    obtain ⟨flag, hb, he⟩ := Option.map_eq_some_iff.mp hv
    cases he
    rw [← hd, mem_settled] at hm
    obtain ⟨last, hl, rfl⟩ := Option.map_eq_some_iff.mp hm
    rw [Json.bool?_settle, Json.bool?_eq_some_iff] at hb
    rw [hl, hb]
  · intro hl
    refine ⟨(name, .bool on), ?_, rfl⟩
    rw [← hd, mem_settled, hl]
    rfl

theorem mem_ignored {name : String} {value : Json} :
    (name, value) ∈ (Dictionary.ofList (members.map fun m => (m.1, m.2.settle))).entries.filter
        (fun m => m.2.bool?.isNone) ↔
      ∃ last, Json.last? members name = some last ∧ last.bool? = none ∧ last.settle = value := by
  rw [List.mem_filter, mem_settled, Option.map_eq_some_iff, Option.isNone_iff_eq_none]
  constructor
  · rintro ⟨⟨last, hl, rfl⟩, none⟩
    exact ⟨last, hl, Json.bool?_settle last ▸ none, rfl⟩
  · rintro ⟨last, hl, none, rfl⟩
    exact ⟨⟨last, hl, rfl⟩, (Json.bool?_settle last).trans none⟩

end

/-- What is read of the extensions, and the members that are told of: one for each name whose last
value is no flag. -/
theorem decodeField_eq {field : Option Json} (h : ∀ j ∈ field, j.isPlain = true) :
    ∃ (set : CapabilitySet) (ignored : List (String × Json)),
      decodeField (field.map Json.settle) =
        (set, (if Json.isMisshapen Json.isObject field then [.extensionsNotAnObject] else []) ++
          ignored.map fun m => .flagIgnored m.1 m.2) ∧
      (∀ name on, set.flags.get? name = some on ↔
        Json.last? (Json.membersOf field) name = some (.bool on)) ∧
      (ignored.map Prod.fst).Nodup ∧
      ∀ name value, (name, value) ∈ ignored ↔ ∃ last,
        Json.last? (Json.membersOf field) name = some last ∧ last.bool? = none ∧
          last.settle = value := by
  have none_set : ∀ name on, CapabilitySet.empty.flags.get? name = some on ↔
      Json.last? [] name = some (.bool on) := fun _ _ => ⟨nofun, nofun⟩
  have none_told : ∀ name value, (name, value) ∈ ([] : List (String × Json)) ↔ ∃ last,
      Json.last? [] name = some last ∧ last.bool? = none ∧ last.settle = value :=
    fun _ _ => ⟨nofun, nofun⟩
  cases field with
  | none => exact ⟨.empty, [], rfl, none_set, .nil, none_told⟩
  | some j =>
    cases j with
    | object listed =>
      obtain ⟨members, hm⟩ := Json.members?_of_plain (h _ rfl)
      have whole : Json.membersOf (some (.object listed)) = members := by
        rw [Json.membersOf, Option.bind_some, hm]
        rfl
      rw [whole, Json.ofMembers_of_members? hm, Option.map_some, Json.settle_ofMembers]
      have shown := Json.members?_ofMembers
        (Dictionary.ofList (members.map fun m => (m.1, m.2.settle))).entries
      unfold Json.ofMembers at shown ⊢
      refine ⟨_, _, ?_, flags_settled members, ?_, fun _ _ => mem_ignored members⟩
      · simp only [decodeField, shown, Option.getD_some, decodeFlags_eq]
        rfl
      · exact (Dictionary.distinct _).sublist (List.filter_sublist.map _)
    | _ => exact ⟨.empty, [], rfl, none_set, .nil, none_told⟩

end CapabilitySet

/-- The items of the list that counts as the rules of a stored object. -/
def storedItems (members : List (String × Json)) : List Json :=
  Json.itemsOf (Json.last? members "rules")

def storedRules (members : List (String × Json)) : List StoredRule :=
  (storedItems members).filterMap StoredRule.ofItem?

def droppedItems (members : List (String × Json)) : List Nat :=
  StoredRule.droppedFrom 0 (storedItems members)

/-- The members of the object that counts as the extensions of a stored object. -/
def storedFlags (members : List (String × Json)) : List (String × Json) :=
  Json.membersOf (Json.last? members "extensions")

/-- What is made of a stored object, and what is told of it. -/
structure Salvaged (members : List (String × Json)) (source last : IdSource) (set : RuleSet)
    (events : List Event) (ignored : List (String × Json)) (renamed : Nat) : Prop where
  policies : set.policies = (storedRules members).map (·.policy)
  accounted : set.rules.length + (droppedItems members).length = (storedItems members).length
  keeps_own : ∀ (k : Nat) stored id rule, (storedRules members)[k]? = some stored →
    stored.id = some id → set.rules[k]? = some rule →
      id ∉ (set.rules.take k).map (·.id) → rule.id = id
  /-- As long as names that are given out are new, the rules with a name of an earlier one are those
  that lose it, and these are counted. -/
  repaired : source.Fresh last.next ((storedRules members).filterMap (·.id)) →
    set.ids.Nodup ∧
    (∀ (k : Nat) stored id rule, (storedRules members)[k]? = some stored → stored.id = some id →
      set.rules[k]? = some rule →
        (rule.id = id ↔ ∀ other ∈ (storedRules members).take k, other.id ≠ some id)) ∧
    renamed = ((storedRules members).zip set.rules).countP fun p => p.1.id.any (· ≠ p.2.id)
  flags : ∀ name on, set.extensions.flags.get? name = some on ↔
    Json.last? (storedFlags members) name = some (.bool on)
  ignored_iff : ∀ name value, (name, value) ∈ ignored ↔ ∃ last,
    Json.last? (storedFlags members) name = some last ∧ last.bool? = none ∧ last.settle = value
  ignored_once : (ignored.map Prod.fst).Nodup
  told : events =
    (if Json.isMisshapen Json.isArray (Json.last? members "rules") then [.rulesNotAList] else []) ++
      (droppedItems members).map .ruleDropped ++
      (if Json.isMisshapen Json.isObject (Json.last? members "extensions") then
        [.extensionsNotAnObject] else []) ++
      ignored.map (fun m => .flagIgnored m.1 m.2) ++
      if renamed = 0 then [] else [.idsRenamed renamed]

theorem Salvaged.warned {members : List (String × Json)} {source last : IdSource} {set : RuleSet}
    {events : List Event} {ignored : List (String × Json)} {renamed : Nat}
    (h : Salvaged members source last set events ignored renamed) :
    ∀ event ∈ events, event.level = .warn := by
  intro event he
  rw [h.told] at he
  simp only [List.mem_append, List.mem_ite_nil_right, List.mem_ite_nil_left, List.mem_singleton,
    List.mem_map] at he
  rcases he with (((⟨-, rfl⟩ | ⟨index, -, rfl⟩) | ⟨-, rfl⟩) | ⟨m, -, rfl⟩) | ⟨-, rfl⟩ <;> rfl

theorem StoredRuleSet.recover_members {text : String} {members : List (String × Json)}
    (h : Json.objectMembers? text = some members) :
    recover (Json.readSettled? text) =
      (⟨(StoredRule.decodeField ((Json.last? members "rules").map Json.settle)).1,
          (CapabilitySet.decodeField ((Json.last? members "extensions").map Json.settle)).1⟩,
        (StoredRule.decodeField ((Json.last? members "rules").map Json.settle)).2 ++
          (CapabilitySet.decodeField ((Json.last? members "extensions").map Json.settle)).2) := by
  obtain ⟨j, hj, hm⟩ := Option.bind_eq_some_iff.mp h
  have shown := Json.members?_ofMembers
    (Dictionary.ofList (members.map fun m => (m.1, m.2.settle))).entries
  have look := Json.get?_settled members
  rw [Json.readSettled?, hj, Option.map_some, Json.ofMembers_of_members? hm, Json.settle_ofMembers]
  unfold Json.ofMembers at shown ⊢
  unfold Dictionary.get? at look
  simp only [recover, shown, Option.getD_some, look]

theorem StoredRuleSet.recover_other {text : String} (h : Json.objectMembers? text = none) :
    recover (Json.readSettled? text) =
      (⟨[], .empty⟩, [if (Json.readSettled? text).isNone then .notJson else .notAnObject]) := by
  rw [Json.readSettled?]
  rw [Json.objectMembers?] at h
  cases hj : (Json.read? text).filter (·.isReadable 0) with
  | none => rfl
  | some j =>
    have readable := (Option.filter_eq_some_iff.mp hj).2
    rw [Json.isReadable, Bool.and_eq_true] at readable
    cases j with
    | object members =>
      obtain ⟨named, hn⟩ := Json.members?_of_plain readable.1
      rw [hj, Option.bind_some, hn] at h
      cases h
    | _ => rfl

namespace RuleSet

theorem decode_of_recover {text : String} {stored : StoredRuleSet} {events : List Event}
    (h : StoredRuleSet.recover (Json.readSettled? text) = (stored, events)) (source : IdSource) :
    decode text source =
      ((⟨(StoredRule.repaired source stored.rules).1, stored.extensions⟩,
          (StoredRule.repaired source stored.rules).2.2),
        events ++ if (StoredRule.repaired source stored.rules).2.1 = 0 then []
          else [.idsRenamed (StoredRule.repaired source stored.rules).2.1]) := by
  unfold decode
  rw [h]
  rfl

theorem decode_members {text : String} {members : List (String × Json)}
    (h : Json.objectMembers? text = some members) (source : IdSource) :
    ∃ set last events ignored renamed, decode text source = ((set, last), events) ∧
      Salvaged members source last set events ignored renamed := by
  obtain ⟨extensions, ignored, read, flags, once, mem⟩ :=
    @CapabilitySet.decodeField_eq (Json.last? members "extensions")
      (fun _ => Json.objectMembers?_plain h)
  have salvaged := StoredRuleSet.recover_members h
  rw [read, StoredRule.decodeField_eq] at salvaged
  refine ⟨_, _, _, ignored, (StoredRule.repaired source (storedRules members)).2.1,
    decode_of_recover salvaged source, ?_⟩
  constructor
  · exact StoredRule.repaired_policies source (storedRules members)
  · have length := StoredRule.repaired_length source (storedRules members)
    exact length ▸ StoredRule.length_add_dropped (storedItems members) 0
  · intro k stored id rule hk own hr unclaimed
    exact StoredRule.repaired_own hk own hr unclaimed
  · intro fresh
    exact ⟨StoredRule.repaired_nodup fresh,
      fun k stored id rule hk own hr => StoredRule.repaired_id_iff fresh hk own hr,
      StoredRule.repaired_count fresh⟩
  · exact flags
  · exact mem
  · exact once
  · exact congrArg (· ++ _) (List.append_assoc _ _ _).symm

/-- Whatever the text, there is a filter. A text that is no object leaves the empty one and one
warning. Of an object each item of the list of rules is a rule of the filter or a warning with its
place, each name of the extensions is a flag or a warning with that name, each id that is repeated
is counted, and members that are neither rules nor extensions make no difference. -/
theorem decode_loses_nothing (text : String) (source : IdSource) :
    (Json.objectMembers? text = none →
      ∃ event, decode text source = ((.empty, source), [event]) ∧ event.level = .warn ∧
        event = if (Json.readSettled? text).isNone then .notJson else .notAnObject) ∧
    ∀ members, Json.objectMembers? text = some members →
      (∃ set last events ignored renamed, decode text source = ((set, last), events) ∧
        Salvaged members source last set events ignored renamed ∧
        ∀ event ∈ events, event.level = .warn) ∧
      ∀ other others, Json.objectMembers? other = some others →
        (∀ name ∈ ["rules", "extensions"], Json.last? others name = Json.last? members name) →
          decode other source = decode text source := by
  constructor
  · intro none
    refine ⟨_, decode_of_recover (StoredRuleSet.recover_other none) source, ?_, rfl⟩
    split <;> rfl
  · intro members h
    constructor
    · obtain ⟨set, last, events, ignored, renamed, done, salvaged⟩ := decode_members h source
      exact ⟨set, last, events, ignored, renamed, done, salvaged, salvaged.warned⟩
    · intro other others ho same
      have recovered := StoredRuleSet.recover_members ho
      rw [same "rules" (by decide), same "extensions" (by decide),
        ← StoredRuleSet.recover_members h] at recovered
      simp only [decode, recovered]

/-- Members that are given twice, items that are no rules, an id that is repeated and one that is
missing, and values that are no flags. -/
def damaged : String :=
  "\x7b\"rules\":1,\"extensions\":\x7b\"x\":true,\"y\":true,\"z\":null,\"x\":[]\x7d,\"more\":0," ++
    "\"rules\":[\x7b\"id\":\"a\"\x7d,7,\x7b\"id\":\"a\",\"active\":false\x7d," ++
    "\x7b\"id\":5\x7d,\x7b\x7d]\x7d"

def damagedRules : List StoredRule :=
  [⟨some ⟨"a"⟩, ⟨true, .anyof, [], []⟩⟩, ⟨some ⟨"a"⟩, ⟨false, .anyof, [], []⟩⟩,
    ⟨none, ⟨true, .anyof, [], []⟩⟩]

theorem damaged_salvaged :
    (∃ event, decode "[]" (.startingAt 1) = ((.empty, .startingAt 1), [event]) ∧
      event.level = .warn) ∧
    decode "\x7b\"more\":0\x7d" (.startingAt 1) = decode "\x7b\x7d" (.startingAt 1) ∧
    ∃ members set last events ignored, Json.objectMembers? damaged = some members ∧
      decode damaged (.startingAt 1) = ((set, last), events) ∧
      Salvaged members (.startingAt 1) last set events ignored 1 ∧
      (IdSource.startingAt 1).Fresh last.next ((storedRules members).filterMap (·.id)) ∧
      set.ids = [⟨"a"⟩, .numbered 2, .numbered 1] ∧ set.extensions.flags.entries = [("y", true)] ∧
      storedRules members = damagedRules ∧ droppedItems members = [1, 3] := by
  have plain : (Json.objectMembers? "[]").isNone = true := by
    decide +kernel
  obtain ⟨event, other, warned, -⟩ :=
    (decode_loses_nothing "[]" (.startingAt 1)).1 (Option.isNone_iff_eq_none.mp plain)
  have nothing : (Json.objectMembers? "\x7b\x7d").map (·.map Prod.fst) = some [] := by
    decide +kernel
  have more : (Json.objectMembers? "\x7b\"more\":0\x7d").map (·.map Prod.fst) = some ["more"] := by
    decide +kernel
  obtain ⟨none, hn, names⟩ := Option.map_eq_some_iff.mp nothing
  obtain rfl := List.map_eq_nil_iff.mp names
  obtain ⟨one, ho, names⟩ := Option.map_eq_some_iff.mp more
  obtain ⟨⟨name, value⟩, rest, rfl, rfl, ended⟩ := List.map_eq_cons_iff.mp names
  obtain rfl := List.map_eq_nil_iff.mp ended
  have same := ((decode_loses_nothing "\x7b\x7d" (.startingAt 1)).2 [] hn).2 _ _ ho
    (by simp [Json.last?])
  refine ⟨⟨event, other, warned⟩, same, ?_⟩
  have parts : (Json.objectMembers? damaged).map (fun m => (storedRules m, droppedItems m)) =
      some (damagedRules, [1, 3]) := by
    decide +kernel
  obtain ⟨members, hm, parts⟩ := Option.map_eq_some_iff.mp parts
  obtain ⟨rules, dropped⟩ := Prod.mk.inj parts
  obtain ⟨⟨set, last, events, ignored, renamed, done, salvaged, -⟩, -⟩ :=
    (decode_loses_nothing damaged (.startingAt 1)).2 members hm
  have whole : (decode damaged (.startingAt 1)).1.1 =
      ⟨[⟨⟨true, .anyof, [], []⟩, ⟨"a"⟩⟩, ⟨⟨false, .anyof, [], []⟩, .numbered 2⟩,
        ⟨⟨true, .anyof, [], []⟩, .numbered 1⟩], ⟨Dictionary.empty.insert "y" true⟩⟩ := by
    decide +kernel
  have stop : (decode damaged (.startingAt 1)).1.2.next = 2 := by
    decide +kernel
  rw [done] at whole stop
  obtain rfl : set = _ := whole
  have stop : last.next = 2 := stop
  have fresh : (IdSource.startingAt 1).Fresh last.next
      ((storedRules members).filterMap (·.id)) := by
    rw [rules, stop]
    constructor
    · intro n _ hn
      obtain rfl | rfl : n = 0 ∨ n = 1 := by omega
      · decide +kernel
      · decide +kernel
    · intro m n _ hm hn
      obtain ⟨rfl, rfl⟩ : m = 0 ∧ n = 1 := by omega
      decide +kernel
  have counted := (salvaged.repaired fresh).2.2
  rw [rules] at counted
  obtain rfl : renamed = 1 := counted.trans (by decide +kernel)
  exact ⟨members, _, last, events, ignored, hm, done, salvaged, fresh, rfl, rfl, rules, dropped⟩

end RuleSet

end SieveRules
