import SieveRules.Proofs.Convertible
/-!
The order of arguments. Taking in two units that set different fields comes to the same in either
order, so arguments may be rearranged as long as units of one field, strings without a tag among
them, stay in order, and a valued tag keeps its value behind it.
-/

namespace SieveRules

section

variable {α φ : Type} [DecidableEq φ] {field? : α → Option φ}

/-- The same items in another order, where items of one field stand as they did. -/
structure Reordered (field? : α → Option φ) (items others : List α) : Prop where
  perm : others.Perm items
  order : ∀ field, others.filter (field? · = some field) = items.filter (field? · = some field)

def FieldsDiffer (field? : α → Option φ) (a b : α) : Prop :=
  ∀ field, field? a = some field → field? b ≠ some field

theorem Reordered.first {a : α} {items others : List α} (h : Reordered field? (a :: items) others) :
    ∃ before after, others = before ++ a :: after ∧ (∀ b ∈ before, FieldsDiffer field? a b) ∧
      Reordered field? items (before ++ after) := by
  obtain ⟨before, after, rfl, apart⟩ : ∃ before after, others = before ++ a :: after ∧
      ∀ b ∈ before, FieldsDiffer field? a b := by
    cases ha : field? a with
    | none =>
      obtain ⟨before, after, whole⟩ := List.append_of_mem (h.perm.mem_iff.mpr List.mem_cons_self)
      refine ⟨before, after, whole, ?_⟩
      intro b _ field own
      rw [ha] at own
      cases own
    | some field =>
      have order := h.order field
      rw [List.filter_cons_of_pos (by simpa using ha), List.filter_eq_cons_iff] at order
      obtain ⟨before, after, whole, others, -, -⟩ := order
      refine ⟨before, after, whole, ?_⟩
      intro b hb own has same
      obtain rfl : field = own := Option.some.inj (ha.symm.trans has)
      exact others b hb (by simpa using same)
  refine ⟨before, after, rfl, apart, ?_, ?_⟩
  · exact (List.perm_middle.symm.trans h.perm).cons_inv
  · intro field
    have order := h.order field
    rw [List.filter_append] at order ⊢
    by_cases ha : field? a = some field
    · have cleared : before.filter (field? · = some field) = [] := by
        rw [List.filter_eq_nil_iff]
        intro b hb
        simpa using apart b hb field ha
      rw [List.filter_cons_of_pos (by simpa using ha), List.filter_cons_of_pos (by simpa using ha),
        cleared] at order
      rw [cleared]
      exact (List.cons.inj order).2
    · rwa [List.filter_cons_of_neg (by simpa using ha),
        List.filter_cons_of_neg (by simpa using ha)] at order

end

section

variable {α φ σ : Type} {field? : α → Option φ} {step : σ → α → σ}
  (commutes : ∀ s a b, FieldsDiffer field? a b → step (step s a) b = step (step s b) a)
include commutes

theorem foldl_sooner {a : α} {before : List α} (apart : ∀ b ∈ before, FieldsDiffer field? a b)
    (after : List α) (s : σ) :
    (before ++ a :: after).foldl step s = (before ++ after).foldl step (step s a) := by
  induction before generalizing s with
  | nil => rfl
  | cons b before ih =>
    have next := ih (fun other ho => apart other (List.mem_cons_of_mem _ ho)) (step s b)
    rw [← commutes s a b (apart b List.mem_cons_self)] at next
    exact next

/-- Items are taken in to the same effect in another order. -/
theorem Reordered.foldl_eq [DecidableEq φ] {items others : List α}
    (h : Reordered field? items others) (s : σ) : others.foldl step s = items.foldl step s := by
  induction items generalizing others s with
  | nil =>
    obtain rfl := h.perm.eq_nil
    rfl
  | cons a items ih =>
    obtain ⟨before, after, rfl, apart, rest⟩ := h.first
    rw [foldl_sooner commutes apart, ih rest, List.foldl_cons]

end

def ArgumentUnit.arguments (unit : ArgumentUnit) : List Argument :=
  unit.head :: unit.value.toList

/-- A unit is a valued tag with the argument behind it, or any other argument on its own. -/
inductive ArgumentUnit.IsWhole (valued : List String) : ArgumentUnit → Prop where
  | valued {name : String} (h : name ∈ valued) (value : Argument) :
      IsWhole valued ⟨.tag name, some value⟩
  | single {argument : Argument} (h : ∀ name, argument = .tag name → name ∉ valued) :
      IsWhole valued ⟨argument, none⟩

theorem ArgumentUnit.isWhole_iff {valued : List String} {unit : ArgumentUnit} :
    unit.IsWhole valued ↔ (unit.value.isSome = true ↔ ∃ name ∈ valued, unit.head = .tag name) := by
  obtain ⟨head, value⟩ := unit
  constructor
  · rintro (⟨h, value⟩ | h)
    · exact iff_of_true rfl ⟨_, h, rfl⟩
    · refine iff_of_false Bool.false_ne_true ?_
      rintro ⟨name, hn, same⟩
      exact h name same hn
  · intro h
    cases value with
    | none => exact .single fun name same hn => Bool.false_ne_true (h.mpr ⟨name, hn, same⟩)
    | some value =>
      obtain ⟨name, hn, rfl⟩ := h.mp rfl
      exact .valued hn value

instance (valued : List String) (unit : ArgumentUnit) : Decidable (unit.IsWhole valued) :=
  decidable_of_iff _ ArgumentUnit.isWhole_iff.symm

/-- What an argument can set of a condition or an action. -/
inductive ArgumentField where
  | matchType
  | comparator
  | part
  | positional
  | mailbox
  | create
  | copy
  | flags
  | address
  | reason
  | days
  | subject
  | message
  deriving DecidableEq, Repr

namespace Argument

/-- Arguments of which each valued tag has one behind it, and their units in another order, where
units that set the same field stand as they did. -/
inductive Rearranged (valued : List String) (field? : ArgumentUnit → Option ArgumentField) :
    List Argument → List Argument → Prop where
  | units {units others : List ArgumentUnit} (whole : ∀ unit ∈ units, unit.IsWhole valued)
      (h : Reordered field? units others) :
      Rearranged valued field? (units.flatMap ArgumentUnit.arguments)
        (others.flatMap ArgumentUnit.arguments)

theorem units_joined {valued : List String} {parts : List ArgumentUnit}
    (whole : ∀ unit ∈ parts, unit.IsWhole valued) :
    units valued (parts.flatMap ArgumentUnit.arguments) = parts := by
  induction parts with
  | nil => rfl
  | cons unit parts ih =>
    have later := ih fun other ho => whole other (List.mem_cons_of_mem _ ho)
    rw [List.flatMap_cons]
    cases whole unit List.mem_cons_self with
    | valued h value => exact (units_valued h value _).trans (congrArg _ later)
    | single h => exact (units_plain h _).trans (congrArg _ later)

theorem Rearranged.isEmpty {valued : List String} {field? : ArgumentUnit → Option ArgumentField}
    {arguments others : List Argument} (h : Rearranged valued field? arguments others) :
    others.isEmpty = arguments.isEmpty := by
  cases h with
  | @units units others _ h =>
    have same : others.isEmpty = units.isEmpty := by
      rw [Bool.eq_iff_iff, List.isEmpty_iff_length_eq_zero, List.isEmpty_iff_length_eq_zero,
        h.perm.length_eq]
    cases units <;> cases others <;> first | rfl | cases same

theorem Rearranged.reordered {valued : List String} {field? : ArgumentUnit → Option ArgumentField}
    {arguments others : List Argument} (h : Rearranged valued field? arguments others) :
    Reordered field? (Argument.units valued arguments) (Argument.units valued others) := by
  cases h with
  | units whole h =>
    rw [units_joined whole, units_joined fun unit hu => whole unit (h.perm.mem_iff.mp hu)]
    exact h

end Argument

def ArgumentUnit.piece? (takesPart : Bool) (unit : ArgumentUnit) : Option Piece :=
  match unit.head with
  | .tag name =>
    if name = ":comparator" then (unit.value.bind Argument.string?).map .comparator
    else
      match (Vocabulary.named? name : Option MatchType) with
      | some m => some (.matchType m)
      | none => if takesPart then (Vocabulary.named? name).map .part else none
  | .number _ => none
  | .string value => some (.strings [value])
  | .stringList items => some (.strings items)

def Piece.field : Piece → ArgumentField
  | matchType _ => .matchType
  | part _ => .part
  | comparator _ => .comparator
  | strings _ => .positional

namespace TestArguments

theorem take_comm (found : TestArguments) {p q : Piece} (h : p.field ≠ q.field) :
    (found.take p).take q = (found.take q).take p := by
  cases p <;> cases q <;> first | rfl | exact absurd rfl h

theorem add_piece (takesPart : Bool) (found : TestArguments) (unit : ArgumentUnit) :
    (add takesPart found unit).toOption = (unit.piece? takesPart).map found.take := by
  obtain ⟨head, value⟩ := unit
  cases head with
  | tag name =>
    by_cases hn : name = ":comparator"
    · rcases value with _ | ⟨named⟩ | _ | _ | _ <;> simp [add, ArgumentUnit.piece?, hn] <;> rfl
    · simp only [add, ArgumentUnit.piece?, if_neg hn]
      cases (Vocabulary.named? name : Option MatchType) with
      | some m => rfl
      | none => cases takesPart <;> cases (Vocabulary.named? name : Option AddressPart) <;> rfl
  | number digits => rfl
  | string value => rfl
  | stringList items => rfl

def takeUnit (takesPart : Bool) (found : Option TestArguments) (unit : ArgumentUnit) :
    Option TestArguments :=
  found.bind fun found => (unit.piece? takesPart).map found.take

theorem foldl_takeUnit_none (takesPart : Bool) (units : List ArgumentUnit) :
    units.foldl (takeUnit takesPart) none = none := by
  induction units with
  | nil => rfl
  | cons unit units ih => exact ih

theorem foldlM_takeUnit (takesPart : Bool) (found : TestArguments) (units : List ArgumentUnit) :
    (units.foldlM (add takesPart) found).toOption =
      units.foldl (takeUnit takesPart) (some found) := by
  induction units generalizing found with
  | nil => rfl
  | cons unit units ih =>
    have first := add_piece takesPart found unit
    rw [List.foldlM_cons, List.foldl_cons, takeUnit, Option.bind_some, ← first]
    cases add takesPart found unit with
    | ok next => exact ih next
    | error fault => exact (foldl_takeUnit_none takesPart units).symm

theorem takeUnit_comm (takesPart : Bool) (found : Option TestArguments) (u v : ArgumentUnit)
    (apart : FieldsDiffer (fun unit => (unit.piece? takesPart).map Piece.field) u v) :
    takeUnit takesPart (takeUnit takesPart found u) v =
      takeUnit takesPart (takeUnit takesPart found v) u := by
  cases found with
  | none => rfl
  | some found =>
    simp only [takeUnit, Option.bind_some]
    cases hu : u.piece? takesPart with
    | none => cases v.piece? takesPart <;> rfl
    | some p =>
      cases hv : v.piece? takesPart with
      | none => rfl
      | some q =>
        have differ : p.field ≠ q.field := by
          intro same
          exact apart p.field (congrArg _ hu) ((congrArg _ hv).trans (congrArg some same.symm))
        exact congrArg some (take_comm found differ)

end TestArguments

/-- The tags that have a value behind them in tests of a kind. -/
def ConditionKind.valuedTags : ConditionKind → List String
  | .header | .address | .present => [":comparator"]
  | _ => []

/-- The field of its condition that a unit sets. A unit that the test refuses sets none. -/
def ConditionKind.field? (kind : ConditionKind) (unit : ArgumentUnit) : Option ArgumentField :=
  (unit.piece? (kind = .address)).map Piece.field

namespace Test

theorem collect_rearranged {kind : ConditionKind} {arguments others : List Argument}
    (h : Argument.Rearranged [":comparator"] kind.field? arguments others) :
    (TestArguments.collect (kind = .address) others).toOption =
      (TestArguments.collect (kind = .address) arguments).toOption := by
  rw [TestArguments.collect, TestArguments.collect, TestArguments.foldlM_takeUnit,
    TestArguments.foldlM_takeUnit]
  exact h.reordered.foldl_eq (TestArguments.takeUnit_comm _) _

theorem toOption_bind_congr {ε α β : Type} {x y : Except ε α} (h : x.toOption = y.toOption)
    (f : α → Except ε β) : (x >>= f).toOption = (y >>= f).toOption := by
  cases x <;> cases y <;> cases h <;> rfl

theorem conditionOf_rearranged {kind : ConditionKind} {arguments others : List Argument}
    (h : Argument.Rearranged kind.valuedTags kind.field? arguments others) :
    (conditionOf others kind).toOption = (conditionOf arguments kind).toOption := by
  cases kind with
  | header => exact toOption_bind_congr (@collect_rearranged .header _ _ h) _
  | address => exact toOption_bind_congr (@collect_rearranged .address _ _ h) _
  | present => exact toOption_bind_congr (@collect_rearranged .present _ _ h) _
  | always | never =>
    rw [conditionOf, conditionOf, h.isEmpty]
  | envelope | size | body => rfl

theorem toCondition_toOption {test : Test} {kind : ConditionKind}
    (hk : Vocabulary.named? test.name = some kind) :
    test.toCondition.toOption =
      if test.tests.isEmpty then (conditionOf test.arguments kind).toOption.join else none := by
  simp only [toCondition, hk]
  cases test.tests.isEmpty with
  | false => rfl
  | true =>
    cases conditionOf test.arguments kind with
    | error fault => rfl
    | ok found => cases found <;> rfl

end Test

theorem foldUnits_state {σ : Type} (step : σ → ArgumentUnit → σ × Option Event) (s : σ)
    (units : List ArgumentUnit) :
    (foldUnits step s units).1 = units.foldl (fun s unit => (step s unit).1) s := by
  induction units generalizing s with
  | nil => rfl
  | cons unit units ih => exact ih (step s unit).1

/-- Taking units in makes the same of rearranged arguments, where a unit at most sets a field of its
own, and where different fields do not touch each other. -/
theorem foldUnits_rearranged {σ : Type} {step : σ → ArgumentUnit → σ × Option Event}
    {field? : ArgumentUnit → Option ArgumentField} {set : ArgumentField → ArgumentUnit → σ → σ}
    (sets : ∀ s unit, (step s unit).1 = ((field? unit).map (set · unit s)).getD s)
    (apart : ∀ s u v f g, f ≠ g → set g v (set f u s) = set f u (set g v s))
    {valued : List String} {arguments others : List Argument}
    (h : Argument.Rearranged valued field? arguments others) (s : σ) :
    (foldUnits step s (Argument.units valued others)).1 =
      (foldUnits step s (Argument.units valued arguments)).1 := by
  rw [foldUnits_state, foldUnits_state]
  refine h.reordered.foldl_eq ?_ s
  intro s u v differ
  simp only [sets]
  cases hu : field? u with
  | none => rfl
  | some f =>
    cases hv : field? v with
    | none => rfl
    | some g =>
      refine apart s u v f g ?_
      rintro rfl
      exact differ f hu hv

namespace FileintoArguments

def field? (unit : ArgumentUnit) : Option ArgumentField :=
  match unit.head with
  | .tag ":create" => some .create
  | .tag ":copy" => some .copy
  | .tag ":flags" => some .flags
  | .string _ => some .mailbox
  | _ => none

def set (field : ArgumentField) (unit : ArgumentUnit) (found : FileintoArguments) :
    FileintoArguments :=
  match field with
  | .create => { found with create := true }
  | .copy => { found with copy := true }
  | .flags => { found with flags := (unit.value.bind Argument.strings?).getD [] }
  | .mailbox => { found with mailbox := unit.head.string?.getD "" }
  | _ => found

theorem add_sets (found : FileintoArguments) (unit : ArgumentUnit) :
    (found.add unit).1 = ((field? unit).map (set · unit found)).getD found := by
  obtain ⟨head, value⟩ := unit
  unfold add field?
  cases head with
  | tag name =>
    by_cases create : name = ":create"
    · subst create
      rfl
    by_cases copy : name = ":copy"
    · subst copy
      rfl
    by_cases flags : name = ":flags"
    · subst flags
      rfl
    simp [create, copy, flags]
  | string mailbox => rfl
  | number digits => rfl
  | stringList items => rfl

theorem set_apart (found : FileintoArguments) (u v : ArgumentUnit) (f g : ArgumentField)
    (h : f ≠ g) : set g v (set f u found) = set f u (set g v found) := by
  cases f <;> cases g <;> first | rfl | exact absurd rfl h

end FileintoArguments

namespace RedirectArguments

def field? (unit : ArgumentUnit) : Option ArgumentField :=
  match unit.head with
  | .tag ":copy" => some .copy
  | .string _ => some .address
  | _ => none

def set (field : ArgumentField) (unit : ArgumentUnit) (found : RedirectArguments) :
    RedirectArguments :=
  match field with
  | .copy => { found with copy := true }
  | .address => { found with address := unit.head.string?.getD "" }
  | _ => found

theorem add_sets (found : RedirectArguments) (unit : ArgumentUnit) :
    (found.add unit).1 = ((field? unit).map (set · unit found)).getD found := by
  obtain ⟨head, value⟩ := unit
  unfold add field?
  cases head with
  | tag name =>
    by_cases copy : name = ":copy"
    · subst copy
      rfl
    simp [copy]
  | string address => rfl
  | number digits => rfl
  | stringList items => rfl

theorem set_apart (found : RedirectArguments) (u v : ArgumentUnit) (f g : ArgumentField)
    (h : f ≠ g) : set g v (set f u found) = set f u (set g v found) := by
  cases f <;> cases g <;> first | rfl | exact absurd rfl h

end RedirectArguments

namespace VacationArguments

def field? (unit : ArgumentUnit) : Option ArgumentField :=
  match unit.head with
  | .tag ":days" => some .days
  | .tag ":subject" => some .subject
  | .string _ => some .message
  | _ => none

def set (field : ArgumentField) (unit : ArgumentUnit) (found : VacationArguments) :
    VacationArguments :=
  match field with
  | .days => { found with days := unit.value.bind Argument.word32? }
  | .subject => { found with subject := unit.value.bind Argument.string? }
  | .message => { found with message := unit.head.string?.getD "" }
  | _ => found

theorem add_sets (found : VacationArguments) (unit : ArgumentUnit) :
    (found.add unit).1 = ((field? unit).map (set · unit found)).getD found := by
  obtain ⟨head, value⟩ := unit
  unfold add field?
  cases head with
  | tag name =>
    by_cases days : name = ":days"
    · subst days
      rfl
    by_cases subject : name = ":subject"
    · subst subject
      rfl
    by_cases other : name ∈ foreign <;> simp [days, subject, other]
  | string message => rfl
  | number digits => rfl
  | stringList items => rfl

theorem set_apart (found : VacationArguments) (u v : ArgumentUnit) (f g : ArgumentField)
    (h : f ≠ g) : set g v (set f u found) = set f u (set g v found) := by
  cases f <;> cases g <;> first | rfl | exact absurd rfl h

end VacationArguments

def ActionKind.valuedTags : ActionKind → List String
  | .fileinto => [":flags"]
  | .vacation => [":days", ":subject", ":from", ":addresses", ":handle", ":seconds", ":fcc"]
  | _ => []

/-- The field of its action that a unit sets. A unit that the command passes over sets none. -/
def ActionKind.field? (kind : ActionKind) (unit : ArgumentUnit) : Option ArgumentField :=
  match kind with
  | .fileinto => FileintoArguments.field? unit
  | .redirect => RedirectArguments.field? unit
  | .vacation => VacationArguments.field? unit
  | .reject => unit.head.string?.map fun _ => .reason
  | _ => none

namespace Command

theorem reason_of_units {units : List ArgumentUnit} (whole : ∀ unit ∈ units, unit.IsWhole []) :
    (units.flatMap ArgumentUnit.arguments).findSome? Argument.string? =
      (units.filter (ActionKind.reject.field? · = some .reason)).findSome? (·.head.string?) := by
  induction units with
  | nil => rfl
  | cons unit units ih =>
    have later := ih fun other ho => whole other (List.mem_cons_of_mem _ ho)
    rw [List.flatMap_cons]
    cases whole unit List.mem_cons_self with
    | valued h value => cases h
    | @single argument h =>
      cases argument with
      | string reason => rfl
      | _ => exact later

theorem actionOf_rearranged {kind : ActionKind} {arguments others : List Argument}
    (h : Argument.Rearranged kind.valuedTags kind.field? arguments others) :
    (actionOf others kind).1 = (actionOf arguments kind).1 := by
  cases kind with
  | fileinto =>
    have same := foldUnits_rearranged FileintoArguments.add_sets FileintoArguments.set_apart h
    exact congrArg
      (fun found => some (Action.fileinto found.mailbox found.create found.copy found.flags))
      (same _)
  | redirect =>
    have same := foldUnits_rearranged RedirectArguments.add_sets RedirectArguments.set_apart h
    exact congrArg (fun found => some (Action.redirect found.address found.copy)) (same _)
  | vacation =>
    have same := foldUnits_rearranged VacationArguments.add_sets VacationArguments.set_apart h
    exact congrArg
      (fun found => some (Action.vacation found.days found.subject found.message)) (same _)
  | reject =>
    cases h with
    | @units units others whole h =>
      have wholeOthers : ∀ unit ∈ others, unit.IsWhole [] :=
        fun unit hu => whole unit (h.perm.mem_iff.mp hu)
      rw [actionOf, actionOf, reason_of_units whole, reason_of_units wholeOthers, h.order]
  | keep | discard | stop | addheader | deleteheader => rfl

theorem toAction_first {command : Command} {kind : ActionKind}
    (hk : Vocabulary.named? command.name = some kind) :
    command.toAction.1 = (actionOf command.arguments kind).1 := by
  unfold toAction
  rw [hk, Option.map_some]
  rcases actionOf command.arguments kind with ⟨_ | action, events⟩ <;> rfl

end Command

/-- A test or a command whose arguments are rearranged, each valued tag with its value and those
that set one field in their order, stands for the same condition, if for any, and for the same
action. -/
theorem rearranged_arguments_alike :
    (∀ (test : Test) (kind : ConditionKind) (others : List Argument),
      Vocabulary.named? test.name = some kind →
      Argument.Rearranged kind.valuedTags kind.field? test.arguments others →
      { test with arguments := others }.toCondition.toOption = test.toCondition.toOption) ∧
    ∀ (command : Command) (kind : ActionKind) (others : List Argument),
      Vocabulary.named? command.name = some kind →
      Argument.Rearranged kind.valuedTags kind.field? command.arguments others →
      { command with arguments := others }.toAction.1 = command.toAction.1 := by
  constructor
  · intro test kind others hk h
    rw [Test.toCondition_toOption hk, ← Test.conditionOf_rearranged h]
    exact @Test.toCondition_toOption { test with arguments := others } kind hk
  · intro command kind others hk h
    rw [Command.toAction_first hk, ← Command.actionOf_rearranged h]
    exact @Command.toAction_first { command with arguments := others } kind hk

/-- Twice a match type and a comparator are given, and the last of each counts. -/
def headerUnits : List ArgumentUnit :=
  [⟨.tag ":is", none⟩, ⟨.string "S", none⟩, ⟨.tag ":comparator", some (.string "")⟩,
    ⟨.tag ":contains", none⟩, ⟨.tag ":comparator", some (.string "i;octet")⟩,
    ⟨.stringList ["a", "b"], none⟩]

def headerShuffled : List ArgumentUnit :=
  [⟨.tag ":comparator", some (.string "")⟩, ⟨.string "S", none⟩, ⟨.stringList ["a", "b"], none⟩,
    ⟨.tag ":is", none⟩, ⟨.tag ":comparator", some (.string "i;octet")⟩, ⟨.tag ":contains", none⟩]

/-- The name of one option is the value of another. -/
def vacationUnits : List ArgumentUnit :=
  [⟨.string "Away", none⟩, ⟨.tag ":days", some (.number "7")⟩, ⟨.tag ":from", some (.tag ":days")⟩,
    ⟨.tag ":subject", some (.string "Out")⟩, ⟨.string "Back soon", none⟩, ⟨.tag ":mime", none⟩]

def vacationShuffled : List ArgumentUnit :=
  [⟨.tag ":mime", none⟩, ⟨.tag ":subject", some (.string "Out")⟩, ⟨.string "Away", none⟩,
    ⟨.tag ":from", some (.tag ":days")⟩, ⟨.string "Back soon", none⟩,
    ⟨.tag ":days", some (.number "7")⟩]

theorem shuffled_arguments_alike :
    (Argument.Rearranged [":comparator"] ConditionKind.header.field?
        (headerUnits.flatMap ArgumentUnit.arguments)
        (headerShuffled.flatMap ArgumentUnit.arguments) ∧
      (⟨"header", headerShuffled.flatMap ArgumentUnit.arguments, []⟩ : Test).toCondition.toOption =
        some (.header "i;octet" .contains "S" ["a", "b"])) ∧
    Argument.Rearranged ActionKind.vacation.valuedTags ActionKind.vacation.field?
        (vacationUnits.flatMap ArgumentUnit.arguments)
        (vacationShuffled.flatMap ArgumentUnit.arguments) ∧
      (⟨"vacation", vacationShuffled.flatMap ArgumentUnit.arguments, [], none⟩ :
        Command).toAction.1 = some (.vacation (some 7) (some "Out") "Back soon") := by
  have header : Argument.Rearranged ConditionKind.header.valuedTags ConditionKind.header.field?
      (headerUnits.flatMap ArgumentUnit.arguments)
      (headerShuffled.flatMap ArgumentUnit.arguments) := by
    refine .units (by decide) ⟨by decide, ?_⟩
    intro field
    cases field <;> decide
  have vacation : Argument.Rearranged ActionKind.vacation.valuedTags ActionKind.vacation.field?
      (vacationUnits.flatMap ArgumentUnit.arguments)
      (vacationShuffled.flatMap ArgumentUnit.arguments) := by
    refine .units (by decide) ⟨by decide, ?_⟩
    intro field
    cases field <;> decide
  have test := rearranged_arguments_alike.1
    ⟨"header", headerUnits.flatMap ArgumentUnit.arguments, []⟩ .header _ (by decide) header
  have command := rearranged_arguments_alike.2
    ⟨"vacation", vacationUnits.flatMap ArgumentUnit.arguments, [], none⟩ .vacation _ (by decide)
    vacation
  exact ⟨⟨header, test.trans (by decide)⟩, vacation, command.trans (by decide)⟩

end SieveRules
