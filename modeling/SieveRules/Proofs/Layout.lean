import SieveRules.Proofs.Records
/-!
Conditions and actions read back from the stored layout, in place or from a settled copy.
-/

namespace SieveRules

namespace Condition

variable {f : Json → Json} (hf : Json.Rearranges f)

include hf

theorem ofRecord?_members (condition : Condition) {others : List (String × Json)}
    (h : Json.Carries f others condition.members) :
    ofRecord? condition.kind others = some condition := by
  have look := h.lookup
  cases condition <;>
    simp [ofRecord?, kind, fieldOr, look, members, Dictionary.lookup_cons_if, hf.ofString,
      hf.ofWord, hf.ofStrings, Json.string?_ofString, Json.strings?_ofStrings,
      Json.oneOrMany?_ofStrings, Json.word?_ofWord]

omit hf

theorem members_names (condition : Condition) :
    condition.members.map Prod.fst = fields condition.kind := by
  cases condition <;> rfl

theorem fields_distinct (kind : ConditionKind) : ("type" :: fields kind).Nodup := by
  cases kind <;> decide

theorem members_fit (condition : Condition) : ∀ m ∈ condition.members, Json.Fits 1 m.2 := by
  cases condition <;>
    simp [members, Json.fits_ofString, Json.fits_ofWord, Json.fits_ofStrings]

theorem toJson_fits (condition : Condition) : Json.Fits 2 condition.toJson := by
  refine .members ?_
  intro m hm
  rcases List.mem_cons.mp hm with rfl | hm
  · exact Json.fits_ofWord 1 condition.kind
  · exact condition.members_fit m hm

theorem split?_ofMembers {members : List (String × Json)} {type : Json}
    (h : members.filter (·.1 = "type") = [("type", type)]) :
    split? (.ofMembers members) = some (type, .ofMembers (members.filter (·.1 ≠ "type"))) := by
  have listed := Json.members?_ofMembers members
  unfold Json.ofMembers at listed ⊢
  simp only [split?, listed, Option.bind_eq_bind, Option.bind_some, h]
  rfl

theorem record?_ofMembers {kind : ConditionKind} {others members : List (String × Json)}
    (h : Json.Carries f others members) (hn : members.map Prod.fst = fields kind) :
    record? kind (.ofMembers others) = some others := by
  have renamed : rename kind others = others := by
    unfold rename
    split
    · rename_i he
      refine (List.map_congr_left fun m hm => ?_).trans (List.map_id _)
      have field : m.1 ∈ fields .envelope := by
        have listed := h.names.mem_iff.mp (List.mem_map_of_mem hm)
        rwa [hn, he] at listed
      have other : m.1 ≠ "part" := by
        intro hp
        rw [hp] at field
        revert field
        decide
      obtain ⟨name, value⟩ := m
      exact congrArg (·, value) (if_neg other)
    · rfl
  change ((Json.ofMembers others).members?.map (rename kind)).bind _ = _
  rw [Json.members?_ofMembers, Option.map_some, renamed]
  exact h.known (by rw [hn]; exact fun _ hm => hm)

include hf

theorem decode?_toJson (condition : Condition) {level : Nat} (hl : level + 2 ≤ Json.maxDepth) :
    decode? level (f condition.toJson) = some condition := by
  have names : (("type", Json.ofWord condition.kind) :: condition.members).map Prod.fst =
      "type" :: fields condition.kind := by
    rw [List.map_cons, members_names]
  obtain ⟨others, ho, carried⟩ := hf.carries (names ▸ fields_distinct condition.kind)
  obtain ⟨typed, rest⟩ := carried.split
  rw [hf.ofWord] at typed
  have readable := (rest.fits hf condition.members_fit).readable hl
  have kind : (Json.ofWord condition.kind).string?.bind Vocabulary.exactly? = some condition.kind :=
    Vocabulary.exactly?_word condition.kind
  rw [toJson, ho, decode?, split?_ofMembers typed]
  simp only [Option.bind_eq_bind, Option.bind_some, kind, readable, if_true,
    record?_ofMembers rest condition.members_names, ofRecord?_members hf condition rest]

end Condition

section

variable {α : Type} (name : String) (value : Option α) (encode : α → Json)

theorem optionalMember_lookup (key : String) :
    (optionalMember name value encode).lookup key = if key = name then value.map encode else none := by
  cases value with
  | none => simp [optionalMember]
  | some a => simp [optionalMember, Dictionary.lookup_cons_if]

theorem optionalMember_names : ((optionalMember name value encode).map Prod.fst).Sublist [name] := by
  cases value with
  | none => exact List.nil_sublist _
  | some a => exact .refl _

variable {encode} in
theorem optionalMember_fits {levels : Nat} (h : ∀ a, Json.Fits levels (encode a)) :
    ∀ m ∈ optionalMember name value encode, Json.Fits levels m.2 := by
  intro m hm
  cases value with
  | none => cases hm
  | some a =>
    obtain rfl := List.mem_singleton.mp hm
    exact h a

end

namespace Action

theorem parameters_names {action : Action} {members : List (String × Json)}
    (h : action.parameters? = some members) :
    (members.map Prod.fst).Sublist (fields action.kind) := by
  cases action with
  | keep => cases h
  | discard => cases h
  | stop => cases h
  | fileinto mailbox create copy flags =>
    cases h
    cases flags with
    | nil => exact (List.nil_sublist ["flags"]).append_left ["mailbox", "create", "copy"]
    | cons flag rest => exact .refl _
  | redirect => cases h; exact .refl _
  | reject => cases h; exact .refl _
  | addheader => cases h; exact .refl _
  | deleteheader name value index last matchType comparator =>
    cases h
    simp only [List.map_append, List.map_cons]
    have before := ((optionalMember_names "value" value Json.ofString).cons_cons "name").append
      (optionalMember_names "index" index fun n => .ofNat n.toNat)
    have behind := (optionalMember_names "matchType" matchType Json.ofWord).cons_cons "last"
    exact (before.append behind).append (optionalMember_names "comparator" comparator Json.ofString)
  | vacation days subject message =>
    cases h
    simp only [List.map_append, List.map_cons]
    exact ((optionalMember_names "days" days fun n => .ofNat n.toNat).append
      (optionalMember_names "subject" subject Json.ofString)).append (.refl _)

theorem fields_distinct (kind : ActionKind) : (fields kind).Nodup := by
  cases kind <;> decide

theorem parameters_fit {action : Action} {members : List (String × Json)}
    (h : action.parameters? = some members) : ∀ m ∈ members, Json.Fits 1 m.2 := by
  cases action with
  | keep => cases h
  | discard => cases h
  | stop => cases h
  | fileinto mailbox create copy flags =>
    cases h
    cases flags <;> simp [Json.fits_ofString, Json.Fits.bool, Json.fits_ofStrings]
  | redirect | reject | addheader =>
    cases h
    simp [Json.fits_ofString, Json.Fits.bool]
  | deleteheader name value index last matchType comparator =>
    cases h
    have words := optionalMember_fits "matchType" matchType (Json.fits_ofWord 1)
    have numbers := optionalMember_fits "index" index (Json.fits_ofNat 1)
    have texts := fun name value => optionalMember_fits name value (Json.fits_ofString 1)
    intro m hm
    simp only [List.mem_append, List.mem_cons] at hm
    rcases hm with (((rfl | hm) | hm) | rfl | hm) | hm
    · exact Json.fits_ofString 1 name
    · exact texts _ _ m hm
    · exact numbers m hm
    · exact .bool last
    · exact words m hm
    · exact texts _ _ m hm
  | vacation days subject message =>
    cases h
    intro m hm
    simp only [List.mem_append, List.mem_singleton] at hm
    rcases hm with (hm | hm) | rfl
    · exact optionalMember_fits "days" days (Json.fits_ofNat 1) m hm
    · exact optionalMember_fits "subject" subject (Json.fits_ofString 1) m hm
    · exact Json.fits_ofString 1 message

theorem fieldOr_optional {α : Type} {f : Json → Json} {others : List (String × Json)} {name : String}
    {value : Option α} {encode : α → Json} {read : Json → Option α}
    (hl : others.lookup name = (value.map encode).map f)
    (hr : ∀ a, Json.optional? read (f (encode a)) = some (some a)) :
    fieldOr others name none (Json.optional? read) = some value := by
  cases value with
  | none => rw [fieldOr, hl]; rfl
  | some a => rw [fieldOr, hl]; exact hr a

variable {f : Json → Json} (hf : Json.Rearranges f)

include hf

theorem optional_string (s : String) :
    Json.optional? Json.string? (f (.ofString s)) = some (some s) := by
  rw [hf.ofString]
  rfl

theorem optional_word32 (n : UInt32) :
    Json.optional? Json.word32? (f (.ofNat n.toNat)) = some (some n) := by
  rw [hf.ofNat]
  exact congrArg (Option.map some) (Json.word32?_ofNat n)

theorem optional_word {α : Type} [Vocabulary α] (access : Json.Access) (a : α) :
    Json.optional? (Json.word? access) (f (.ofWord a)) = some (some a) := by
  rw [hf.ofWord]
  exact congrArg (Option.map some) (Json.word?_ofWord access a)

theorem ofRecord?_parameters {action : Action} {members others : List (String × Json)}
    (hp : action.parameters? = some members) (h : Json.Carries f others members)
    (access : Json.Access) : ofRecord? access action.kind others = some action := by
  have look := h.lookup
  cases action with
  | keep => cases hp
  | discard => cases hp
  | stop => cases hp
  | fileinto mailbox create copy flags =>
    cases hp
    cases flags <;>
      simp [ofRecord?, kind, fieldOr, look, Dictionary.lookup_cons_if, hf.ofString, hf.bool,
        hf.ofStrings, Json.string?_ofString, Json.bool?_bool, Json.strings?_ofStrings]
  | redirect | reject | addheader =>
    cases hp
    simp [ofRecord?, kind, fieldOr, look, Dictionary.lookup_cons_if, hf.ofString, hf.bool,
      Json.string?_ofString, Json.bool?_bool]
  | deleteheader name value index last matchType comparator =>
    cases hp
    have given : ∀ key, others.lookup key = _ := look
    simp only [List.lookup_append, Dictionary.lookup_cons_if, optionalMember_lookup] at given
    have name' : fieldOr others "name" "" Json.string? = some name := by
      rw [fieldOr, given "name"]
      simp [hf.ofString, Json.string?_ofString]
    have value' : fieldOr others "value" none (Json.optional? Json.string?) = some value :=
      fieldOr_optional ((given "value").trans (by simp)) (optional_string hf)
    have index' : fieldOr others "index" none (Json.optional? Json.word32?) = some index :=
      fieldOr_optional ((given "index").trans (by simp)) (optional_word32 hf)
    have last' : fieldOr others "last" false Json.bool? = some last := by
      rw [fieldOr, given "last"]
      simp [hf.bool, Json.bool?_bool]
    have matchType' : fieldOr others "matchType" none (Json.optional? (Json.word? access)) =
        some matchType :=
      fieldOr_optional ((given "matchType").trans (by simp)) (optional_word hf access)
    have comparator' : fieldOr others "comparator" none (Json.optional? Json.string?) =
        some comparator :=
      fieldOr_optional ((given "comparator").trans (by simp)) (optional_string hf)
    simp only [ofRecord?, kind, name', value', index', last', matchType', comparator']
    rfl
  | vacation days subject message =>
    cases hp
    have given : ∀ key, others.lookup key = _ := look
    simp only [List.lookup_append, Dictionary.lookup_cons_if, optionalMember_lookup] at given
    have days' : fieldOr others "days" none (Json.optional? Json.word32?) = some days :=
      fieldOr_optional ((given "days").trans (by simp)) (optional_word32 hf)
    have subject' : fieldOr others "subject" none (Json.optional? Json.string?) = some subject :=
      fieldOr_optional ((given "subject").trans (by simp)) (optional_string hf)
    have message' : fieldOr others "message" "" Json.string? = some message := by
      rw [fieldOr, given "message"]
      simp [hf.ofString, Json.string?_ofString]
    simp only [ofRecord?, kind, days', subject', message']
    rfl

omit hf

theorem kind_bare {action : Action} (h : action.parameters? = none) :
    bare? action.kind = some action := by
  cases action <;> first | rfl | cases h

theorem isBare_iff (action : Action) : action.kind.isBare = action.parameters?.isNone := by
  cases action <;> rfl

theorem namesBare_ofWord (kind : ActionKind) : namesBare (.ofWord kind) = kind.isBare := by
  cases kind <;> decide

theorem toJson_names (action : Action) :
    ((("type", Json.ofWord action.kind) ::
      optionalMember "parameters" action.parameters? .ofMembers).map Prod.fst).Sublist
        ["type", "parameters"] :=
  (optionalMember_names "parameters" action.parameters? Json.ofMembers).cons_cons "type"

theorem toJson_fits (action : Action) : Json.Fits 3 action.toJson := by
  refine .members ?_
  intro m hm
  rcases List.mem_cons.mp hm with rfl | hm
  · exact Json.fits_ofWord 2 action.kind
  · cases hp : action.parameters? with
    | none =>
      rw [hp] at hm
      cases hm
    | some members =>
      rw [hp] at hm
      obtain rfl := List.mem_singleton.mp hm
      exact .members (parameters_fit hp)

include hf

theorem withParameters?_ofMembers {action : Action} {members : List (String × Json)}
    (hp : action.parameters? = some members) (access : Json.Access) :
    withParameters? access action.kind (f (.ofMembers members)) = some action := by
  have names := parameters_names hp
  obtain ⟨others, ho, carried⟩ := hf.carries ((fields_distinct action.kind).sublist names)
  rw [ho]
  change ((Json.ofMembers others).members?.bind fun members =>
    (Json.knownFields? (fields action.kind) members).bind (ofRecord? access action.kind)) = _
  rw [Json.members?_ofMembers, Option.bind_some, carried.known names.subset, Option.bind_some,
    ofRecord?_parameters hf hp carried]

/-- An action is an object of its type alone, or of type and parameters in some order. -/
theorem toJson_cases (action : Action) :
    (action.parameters? = none ∧
      f action.toJson = .ofMembers [("type", .ofWord action.kind)]) ∨
    ∃ members, action.parameters? = some members ∧
      (f action.toJson = .ofMembers
          [("type", .ofWord action.kind), ("parameters", f (.ofMembers members))] ∨
        f action.toJson = .ofMembers
          [("parameters", f (.ofMembers members)), ("type", .ofWord action.kind)]) := by
  have distinct : ["type", "parameters"].Nodup := by decide
  obtain ⟨others, ho, carried⟩ := hf.carries (distinct.sublist action.toJson_names)
  have perm := carried.perm
  rw [List.map_cons, hf.ofWord] at perm
  rw [toJson, ho]
  cases hp : action.parameters? with
  | none =>
    rw [hp] at perm
    exact .inl ⟨rfl, congrArg _ (List.perm_singleton.mp perm)⟩
  | some members =>
    rw [hp] at perm
    exact .inr ⟨members, rfl, (perm_pair perm).imp (congrArg _) (congrArg _)⟩

theorem dropLeftover_toJson (action : Action) :
    dropLeftover (f action.toJson) = f action.toJson := by
  have bare := namesBare_ofWord action.kind
  rw [isBare_iff] at bare
  rcases toJson_cases hf action with ⟨-, ho⟩ | ⟨members, hp, ho | ho⟩
  · rw [ho]
    simp [Json.ofMembers, dropLeftover]
  · rw [hp] at bare
    rw [ho]
    simp [Json.ofMembers, dropLeftover, bare]
  · rw [hp] at bare
    rw [ho]
    simp [Json.ofMembers, dropLeftover, bare]

theorem decode?_toJson (action : Action) {level : Nat} (hl : level + 3 ≤ Json.maxDepth) :
    decode? level (f action.toJson) = some action := by
  have kind := Json.word?_ofWord .inPlace action.kind
  rcases toJson_cases hf action with ⟨hp, ho⟩ | ⟨members, hp, ho | ho⟩
  · rw [ho]
    simp [Json.ofMembers, decode?, Json.members?, Json.knownFields?, kind, kind_bare hp]
  · have read := withParameters?_ofMembers hf hp .inPlace
    rw [ho]
    generalize f (.ofMembers members) = parameters at read ⊢
    simp [Json.ofMembers, decode?, Json.members?, Json.knownFields?, kind, read]
  · have read := withParameters?_ofMembers hf hp .copied
    have readable : (f (.ofMembers members)).isReadable (level + 1) = true :=
      (hf.fits (.members (parameters_fit hp))).readable (by omega)
    rw [ho]
    generalize f (.ofMembers members) = parameters at read readable ⊢
    simp [Json.ofMembers, decode?, Json.members?, Json.knownFields?, kind, read, readable]

theorem decodeItem?_toJson (action : Action) {level : Nat} (hl : level + 3 ≤ Json.maxDepth) :
    decodeItem? level (f action.toJson) = some action := by
  have settled := Json.Rearranges.settle.comp hf
  rw [decodeItem?, if_pos ((hf.fits action.toJson_fits).readable hl)]
  change decode? level (dropLeftover ((Json.settle ∘ f) action.toJson)) = _
  rw [dropLeftover_toJson settled, decode?_toJson settled action hl]

end Action

end SieveRules
