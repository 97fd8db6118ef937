import Mathlib.Data.List.Forall2
import SieveRules.Proofs.Accounting
import SieveRules.Proofs.Partition
/-!
Which branches of a script become rules, and with which conditions. A test is read where its
arguments are pieces of a few forms, of each field the last one counts, and a branch is read where
its tests are and no block stands in its block.
-/

namespace SieveRules

open Text

/-- One thing that a test says of its condition. -/
inductive Piece where
  | matchType (m : MatchType)
  | part (p : AddressPart)
  | comparator (name : String)
  | strings (items : List String)
  deriving DecidableEq, Repr

namespace Piece

def matchType? : Piece → Option MatchType
  | matchType m => some m
  | _ => none

def part? : Piece → Option AddressPart
  | part p => some p
  | _ => none

def comparator? : Piece → Option String
  | comparator name => some name
  | _ => none

def strings? : Piece → Option (List String)
  | strings items => some items
  | _ => none

/-- The arguments that write a piece. A comparator is named in a string behind its tag. -/
inductive Written : Piece → List Argument → Prop where
  | matchType (m : MatchType) : Written (matchType m) [.tag m.word]
  | part (p : AddressPart) : Written (part p) [.tag p.word]
  | comparator (name : String) : Written (comparator name) [.tag ":comparator", .string name]
  | string (value : String) : Written (strings [value]) [.string value]
  | stringList (items : List String) : Written (strings items) [.stringList items]

inductive AllWritten : List Piece → List Argument → Prop where
  | nil : AllWritten [] []
  | cons {piece : Piece} {pieces : List Piece} {arguments rest : List Argument}
      (h : piece.Written arguments) (later : AllWritten pieces rest) :
      AllWritten (piece :: pieces) (arguments ++ rest)

/-- The piece is of a form that is known. Parts of an address are known only where they can be
meant. -/
def Known (takesPart : Bool) (piece : Piece) : Prop :=
  piece.part?.isSome = true → takesPart = true

theorem known_of_no_part {takesPart : Bool} {piece : Piece} (h : piece.part? = none) :
    piece.Known takesPart := by
  intro some
  rw [h] at some
  cases some

theorem known_false_iff {pieces : List Piece} :
    (∀ piece ∈ pieces, piece.Known false) ↔ pieces.filterMap part? = [] := by
  rw [List.filterMap_eq_nil_iff]
  constructor
  · intro h piece hp
    exact Option.not_isSome_iff_eq_none.mp fun some => absurd (h piece hp some) Bool.false_ne_true
  · intro h piece hp
    exact known_of_no_part (h piece hp)

end Piece

namespace TestArguments

/-- What pieces say together: of each field the last one, and all the strings. -/
def ofPieces (pieces : List Piece) : TestArguments where
  matchType := (pieces.filterMap Piece.matchType?).getLast?
  comparator := (pieces.filterMap Piece.comparator?).getLast?
  part := (pieces.filterMap Piece.part?).getLast?
  positional := pieces.filterMap Piece.strings?

def take (found : TestArguments) : Piece → TestArguments
  | .matchType m => { found with matchType := some m }
  | .part p => { found with part := some p }
  | .comparator name => { found with comparator := some name }
  | .strings items => { found with positional := found.positional ++ [items] }

theorem ofPieces_concat (pieces : List Piece) (piece : Piece) :
    ofPieces (pieces ++ [piece]) = (ofPieces pieces).take piece := by
  cases piece <;> simp [ofPieces, take, Piece.matchType?, Piece.comparator?, Piece.part?,
    Piece.strings?]

variable {takesPart : Bool} {found result : TestArguments} {piece : Piece}
  {arguments rest : List Argument}

theorem collectFrom_named (name : String) :
    collectFrom takesPart found (.tag ":comparator" :: .string name :: rest) =
      collectFrom takesPart { found with comparator := some name } rest := by
  have taken : add takesPart found ⟨.tag ":comparator", some (.string name)⟩ =
      .ok { found with comparator := some name } := by
    simp [add]
  rw [collectFrom, Argument.units_valued (List.mem_singleton.mpr rfl), List.foldlM_cons, taken]
  rfl

theorem collectFrom_written (hw : piece.Written arguments) (hp : piece.Known takesPart) :
    collectFrom takesPart found (arguments ++ rest) =
      collectFrom takesPart (found.take piece) rest := by
  cases hw with
  | matchType m => exact collectFrom_match_type m
  | part p =>
    obtain rfl := hp rfl
    exact collectFrom_part p
  | comparator name => exact collectFrom_named name
  | string value => exact collectFrom_strings rfl
  | stringList items => exact collectFrom_strings rfl

theorem written_of_collectFrom {argument : Argument}
    (lower : ∀ name, .tag name ∈ argument :: rest → lowerCase name = name)
    (h : collectFrom takesPart found (argument :: rest) = .ok result) :
    ∃ piece said behind, argument :: rest = said ++ behind ∧ piece.Written said ∧
      piece.Known takesPart ∧ collectFrom takesPart (found.take piece) behind = .ok result := by
  cases argument with
  | string value =>
    rw [collectFrom_strings rfl] at h
    exact ⟨.strings [value], [.string value], rest, rfl, .string value,
      Piece.known_of_no_part rfl, h⟩
  | stringList items =>
    rw [collectFrom_strings rfl] at h
    exact ⟨.strings items, [.stringList items], rest, rfl, .stringList items,
      Piece.known_of_no_part rfl, h⟩
  | number digits =>
    have plain : ∀ name, Argument.number digits = .tag name → name ∉ [":comparator"] := by
      rintro name ⟨⟩
    rw [collectFrom, Argument.units_plain plain, List.foldlM_cons] at h
    obtain ⟨_, ha, -⟩ := except_bind_ok h
    cases ha
  | tag name =>
    by_cases hn : name = ":comparator"
    · subst hn
      cases rest with
      | nil => cases h
      | cons value rest =>
        rw [collectFrom, Argument.units_valued (List.mem_singleton.mpr rfl),
          List.foldlM_cons] at h
        obtain ⟨next, ha, h⟩ := except_bind_ok h
        cases value with
        | string named =>
          cases ha
          exact ⟨.comparator named, _, rest, rfl, .comparator named,
            Piece.known_of_no_part rfl, h⟩
        | _ => cases ha
    · have plain : ∀ other, Argument.tag name = .tag other → other ∉ [":comparator"] := by
        rintro other ⟨⟩
        simpa using hn
      have same : lowerCase name = name := lower name List.mem_cons_self
      rw [collectFrom, Argument.units_plain plain, List.foldlM_cons] at h
      replace h := except_bind_ok h
      obtain ⟨next, ha, h⟩ := h
      simp only [add, if_neg hn, Vocabulary.named?, same] at ha
      split at ha
      · rename_i m hm
        cases ha
        obtain rfl := Vocabulary.word_of_exactly? hm
        exact ⟨.matchType m, _, rest, rfl, .matchType m, Piece.known_of_no_part rfl, h⟩
      · split at ha
        · rename_i p hp
          cases ha
          obtain rfl := Vocabulary.word_of_exactly? hp
          exact ⟨.part p, _, rest, rfl, .part p, fun _ => rfl, h⟩
        · cases ha

theorem collectFrom_pieces {pieces : List Piece} (hw : Piece.AllWritten pieces arguments)
    (hp : ∀ piece ∈ pieces, piece.Known takesPart) (before : List Piece) :
    collectFrom takesPart (ofPieces before) arguments = .ok (ofPieces (before ++ pieces)) := by
  induction hw generalizing before with
  | nil => rw [List.append_nil, collectFrom_nil]
  | @cons piece pieces said rest h later ih =>
    rw [collectFrom_written h (hp piece List.mem_cons_self), ← ofPieces_concat,
      ih (fun other ho => hp other (List.mem_cons_of_mem _ ho)), List.append_assoc,
      List.singleton_append]

theorem pieces_of_collectFrom (lower : ∀ name, .tag name ∈ arguments → lowerCase name = name)
    {before : List Piece} (h : collectFrom takesPart (ofPieces before) arguments = .ok found) :
    ∃ pieces, Piece.AllWritten pieces arguments ∧ (∀ piece ∈ pieces, piece.Known takesPart) ∧
      found = ofPieces (before ++ pieces) := by
  -- on the number of arguments, as a comparator takes two of them
  generalize hl : arguments.length = length
  induction length using Nat.strongRecOn generalizing arguments before with
  | _ length ih =>
  cases arguments with
  | nil =>
    cases h
    exact ⟨[], .nil, List.forall_mem_nil _, by rw [List.append_nil]⟩
  | cons argument rest =>
    obtain ⟨piece, said, behind, whole, hw, hp, h⟩ := written_of_collectFrom lower h
    rw [whole] at lower hl ⊢
    have shorter : behind.length < length := by
      have : 0 < said.length := by cases hw <;> exact Nat.succ_pos _
      rw [List.length_append] at hl
      omega
    rw [← ofPieces_concat] at h
    obtain ⟨pieces, all, known, rfl⟩ :=
      ih behind.length shorter (fun name hn => lower name (List.mem_append_right _ hn)) h rfl
    exact ⟨piece :: pieces, .cons hw all, List.forall_mem_cons.mpr ⟨hp, known⟩,
      by rw [List.append_assoc, List.singleton_append]⟩

/-- Arguments of a test are read exactly where they are pieces, and then as these say. -/
theorem collect_ok_iff (lower : ∀ name, .tag name ∈ arguments → lowerCase name = name) :
    collect takesPart arguments = .ok found ↔
      ∃ pieces, Piece.AllWritten pieces arguments ∧ (∀ piece ∈ pieces, piece.Known takesPart) ∧
        found = ofPieces pieces := by
  constructor
  · intro h
    exact @pieces_of_collectFrom _ _ _ lower [] h
  · rintro ⟨pieces, hw, hp, rfl⟩
    exact collectFrom_pieces hw hp []

end TestArguments

namespace Piece

theorem all_strings {pieces : List Piece} (hm : pieces.filterMap matchType? = [])
    (hp : pieces.filterMap part? = []) (hc : pieces.filterMap comparator? = []) :
    pieces = (pieces.filterMap strings?).map strings := by
  induction pieces with
  | nil => rfl
  | cons piece pieces ih =>
    cases piece with
    | strings items => exact congrArg (strings items :: ·) (ih hm hp hc)
    | matchType => cases hm
    | part => cases hp
    | comparator => cases hc

end Piece

/-- What the arguments of a test say of its condition, by the kind of the test. -/
inductive Condition.Said : ConditionKind → List Argument → Condition → Prop where
  | header {pieces : List Piece} {arguments : List Argument} {name : String} {keys : List String}
      (hw : Piece.AllWritten pieces arguments) (parts : pieces.filterMap Piece.part? = [])
      (strings : pieces.filterMap Piece.strings? = [[name], keys]) :
      Said .header arguments
        (.header ((pieces.filterMap Piece.comparator?).getLast?.getD defaultComparator)
          ((pieces.filterMap Piece.matchType?).getLast?.getD .is) name keys)
  | address {pieces : List Piece} {arguments : List Argument} {name : String} {keys : List String}
      (hw : Piece.AllWritten pieces arguments)
      (strings : pieces.filterMap Piece.strings? = [[name], keys]) :
      Said .address arguments
        (.address ((pieces.filterMap Piece.comparator?).getLast?.getD defaultComparator)
          ((pieces.filterMap Piece.matchType?).getLast?.getD .is)
          ((pieces.filterMap Piece.part?).getLast?.getD .all) name keys)
  | present {argument : Argument} {names : List String} (h : argument.strings? = some names) :
      Said .present [argument] (.present names)
  | always : Said .always [] .always
  | never : Said .never [] .never

namespace Test

structure Lower (test : Test) : Prop where
  name : lowerCase test.name = test.name
  tags : ∀ tag, .tag tag ∈ test.arguments → lowerCase tag = tag

/-- The test combines no others, and its arguments say this condition for its kind. -/
def Stands (test : Test) (condition : Condition) : Prop :=
  ∃ kind : ConditionKind, test.name = kind.word ∧ test.tests = [] ∧
    condition.Said kind test.arguments

theorem headerAndKeys_ok_iff (found : TestArguments) {name : String} {keys : List String} :
    found.headerAndKeys = .ok (name, keys) ↔ found.positional = [[name], keys] := by
  obtain ⟨m, comparator, part, positional⟩ := found
  rcases positional with _ | ⟨first, _ | ⟨second, _ | ⟨third, more⟩⟩⟩
  · simp [TestArguments.headerAndKeys]
  · simp [TestArguments.headerAndKeys]
  · rcases first with _ | ⟨only, _ | ⟨other, names⟩⟩ <;> simp [TestArguments.headerAndKeys]
  · simp [TestArguments.headerAndKeys]

variable {arguments : List Argument} {condition : Condition}

theorem present_ok (h : conditionOf arguments .present = .ok (some condition)) :
    ∃ found names, TestArguments.collect false arguments = .ok found ∧ found.matchType = none ∧
      found.comparator = none ∧ found.positional = [names] ∧ condition = .present names := by
  obtain ⟨⟨m, comparator, part, positional⟩, hc, h⟩ := except_bind_ok h
  cases m with
  | some m => cases h
  | none =>
    cases comparator with
    | some name => cases h
    | none =>
      rcases positional with _ | ⟨names, _ | ⟨more, rest⟩⟩
      · cases h
      · cases h
        exact ⟨_, names, hc, rfl, rfl, rfl, rfl⟩
      · cases h

theorem present_said {pieces : List Piece} (hw : Piece.AllWritten pieces arguments)
    (hm : pieces.filterMap Piece.matchType? = []) (hc : pieces.filterMap Piece.comparator? = [])
    (hp : pieces.filterMap Piece.part? = []) {names : List String}
    (hs : pieces.filterMap Piece.strings? = [names]) :
    (Condition.present names).Said .present arguments := by
  have only : pieces = [.strings names] := by
    rw [Piece.all_strings hm hp hc, hs]
    rfl
  subst only
  cases hw with
  | cons h later =>
    cases later
    cases h with
    | string => exact .present rfl
    | stringList => exact .present rfl

theorem keyed_ok_iff (lower : ∀ tag, .tag tag ∈ arguments → lowerCase tag = tag)
    (takesPart : Bool) (make : TestArguments → String → List String → Condition) :
    (do
      let found ← TestArguments.collect takesPart arguments
      let (name, keys) ← found.headerAndKeys
      return some (make found name keys)) = Except.ok (some condition) ↔
      ∃ pieces name keys, Piece.AllWritten pieces arguments ∧
        (∀ piece ∈ pieces, piece.Known takesPart) ∧
          pieces.filterMap Piece.strings? = [[name], keys] ∧
            condition = make (.ofPieces pieces) name keys := by
  constructor
  · intro h
    obtain ⟨found, hc, h⟩ := except_bind_ok h
    replace h := except_bind_ok h
    obtain ⟨⟨name, keys⟩, hk, h⟩ := h
    cases h
    obtain ⟨pieces, hw, hp, rfl⟩ := (TestArguments.collect_ok_iff lower).mp hc
    exact ⟨pieces, name, keys, hw, hp, (headerAndKeys_ok_iff _).mp hk, rfl⟩
  · rintro ⟨pieces, name, keys, hw, hp, hs, rfl⟩
    have collected := (TestArguments.collect_ok_iff lower).mpr ⟨pieces, hw, hp, rfl⟩
    have keyed := (headerAndKeys_ok_iff (.ofPieces pieces)).mpr hs
    simp only [collected, bind, Except.bind, keyed]
    rfl

/-- Arguments make a condition of a kind exactly where they say it. -/
theorem conditionOf_ok_iff (lower : ∀ tag, .tag tag ∈ arguments → lowerCase tag = tag)
    {kind : ConditionKind} :
    conditionOf arguments kind = .ok (some condition) ↔ condition.Said kind arguments := by
  cases kind with
  | header =>
    refine (keyed_ok_iff lower false fun found =>
      .header found.comparatorOrDefault (found.matchType.getD .is)).trans ?_
    constructor
    · rintro ⟨pieces, name, keys, hw, hp, hs, rfl⟩
      exact .header hw (Piece.known_false_iff.mp hp) hs
    · intro h
      cases h with
      | header hw parts hs => exact ⟨_, _, _, hw, Piece.known_false_iff.mpr parts, hs, rfl⟩
  | address =>
    refine (keyed_ok_iff lower true fun found =>
      .address found.comparatorOrDefault (found.matchType.getD .is) (found.part.getD .all)).trans ?_
    constructor
    · rintro ⟨pieces, name, keys, hw, -, hs, rfl⟩
      exact .address hw hs
    · intro h
      cases h with
      | address hw hs => exact ⟨_, _, _, hw, fun _ _ _ => rfl, hs, rfl⟩
  | present =>
    constructor
    · intro h
      obtain ⟨found, names, hc, hm, hn, hs, rfl⟩ := present_ok h
      obtain ⟨pieces, hw, hp, rfl⟩ := (TestArguments.collect_ok_iff lower).mp hc
      exact present_said hw (List.getLast?_eq_none_iff.mp hm) (List.getLast?_eq_none_iff.mp hn)
        (Piece.known_false_iff.mp hp) hs
    · intro h
      cases h with
      | @present argument names hs =>
        have collected :
            TestArguments.collect false [argument] = .ok ⟨none, none, none, [names]⟩ :=
          TestArguments.collectFrom_strings hs
        simp only [conditionOf, collected, bind, Except.bind]
        rfl
  | always =>
    constructor
    · intro h
      cases arguments with
      | nil =>
        cases h
        exact .always
      | cons => cases h
    · rintro ⟨⟩
      rfl
  | never =>
    constructor
    · intro h
      cases arguments with
      | nil =>
        cases h
        exact .never
      | cons => cases h
    · rintro ⟨⟩
      rfl
  | envelope | size | body =>
    -- these are read back as no condition
    constructor
    · intro h
      cases h
    · intro h
      cases h

theorem toCondition_ok_iff {test : Test} (lower : test.Lower) :
    test.toCondition = .ok condition ↔ test.Stands condition := by
  have named : ∀ kind : ConditionKind,
      Vocabulary.named? test.name = some kind ↔ test.name = kind.word := by
    intro kind
    rw [Vocabulary.named?, lower.name, Vocabulary.exactly?_eq_some_iff]
    exact eq_comm
  constructor
  · intro h
    unfold toCondition at h
    split at h
    · cases h
    · rename_i kind hk
      split at h
      · cases h
      · rename_i bare
        split at h
        · cases h
        · cases h
        · rename_i said
          cases h
          exact ⟨kind, (named kind).mp hk, by simpa using bare,
            (conditionOf_ok_iff lower.tags).mp said⟩
  · rintro ⟨kind, hn, ht, said⟩
    simp [toCondition, (named kind).mpr hn, ht, (conditionOf_ok_iff lower.tags).mpr said]

theorem mapM_toCondition_iff {tests : List Test} {conditions : List Condition}
    (lower : ∀ test ∈ tests, test.Lower) :
    tests.mapM toCondition = .ok conditions ↔ List.Forall₂ Stands tests conditions := by
  induction tests generalizing conditions with
  | nil =>
    constructor
    · intro h
      cases h
      exact .nil
    · intro h
      cases h
      rfl
  | cons test tests ih =>
    have first := lower test List.mem_cons_self
    have later := fun {found} => @ih found fun other ho => lower other (List.mem_cons_of_mem _ ho)
    rw [List.mapM_cons]
    constructor
    · intro h
      obtain ⟨condition, hc, h⟩ := except_bind_ok h
      replace h := except_bind_ok h
      obtain ⟨rest, hr, h⟩ := h
      cases h
      exact .cons ((toCondition_ok_iff first).mp hc) (later.mp hr)
    · intro h
      cases h with
      | cons hc hr =>
        rw [(toCondition_ok_iff first).mpr hc, later.mpr hr]
        rfl

end Test

namespace Command

/-- What a branch asks: an `else` asks nothing, and another branch has one test, which joins tests
or stands for a condition of its own. -/
inductive Asks : Command → Combinator → List Condition → Prop where
  | otherwise {branch : Command} (h : branch.name = "else") : Asks branch .allof [.always]
  | single {branch : Command} {test : Test} {condition : Condition} (hn : branch.name ≠ "else")
      (ht : branch.tests = [test]) (h : test.Stands condition) : Asks branch .allof [condition]
  | joined {branch : Command} {test : Test} {c : Combinator} {conditions : List Condition}
      (hn : branch.name ≠ "else") (ht : branch.tests = [test]) (hc : test.name = c.word)
      (h : List.Forall₂ Test.Stands test.tests conditions) : Asks branch c conditions

/-- No command in the block of the branch has a block, or is a branch. -/
def IsFlat (branch : Command) : Prop :=
  ∀ command ∈ branch.block.getD [], command.block = none ∧
    command.name ∉ ["if", "elsif", "else"]

def IsConvertible (branch : Command) : Prop :=
  branch.IsFlat ∧ ∃ c conditions, branch.Asks c conditions

def LowerTests (branch : Command) : Prop :=
  ∀ test ∈ branch.tests, test.Lower ∧ ∀ t ∈ test.tests, t.Lower

variable {branch : Command} {c : Combinator} {conditions : List Condition}

theorem stands_not_joined {test : Test} {condition : Condition} (h : test.Stands condition) :
    (Vocabulary.named? test.name : Option Combinator) = none := by
  obtain ⟨kind, hn, -, -⟩ := h
  rw [hn]
  exact condition_no_combinator kind

theorem branchConditions_ok_iff (lower : branch.LowerTests) :
    branch.branchConditions = .ok (c, conditions) ↔ branch.Asks c conditions := by
  unfold branchConditions
  by_cases hn : branch.name = "else"
  · rw [if_pos hn]
    constructor
    · intro h
      cases h
      exact .otherwise hn
    · intro h
      cases h with
      | otherwise => rfl
      | single other | joined other => exact absurd hn other
  · rw [if_neg hn]
    constructor
    · intro h
      split at h
      · rename_i test ht
        obtain ⟨own, inner⟩ := lower test (ht ▸ List.mem_cons_self)
        unfold Test.toConditions at h
        split at h
        · rename_i joint hc
          obtain ⟨found, hm, h⟩ := except_map_ok h
          cases h
          rw [Vocabulary.named?, own.name, Vocabulary.exactly?_eq_some_iff] at hc
          exact .joined hn ht hc.symm ((Test.mapM_toCondition_iff inner).mp hm)
        · obtain ⟨found, hf, h⟩ := except_map_ok h
          cases h
          exact .single hn ht ((Test.toCondition_ok_iff own).mp hf)
      · cases h
    · intro h
      cases h with
      | otherwise h => exact absurd h hn
      | @single test condition _ ht h =>
        have own := (lower test (ht ▸ List.mem_cons_self)).1
        simp only [ht, Test.toConditions, stands_not_joined h, (Test.toCondition_ok_iff own).mpr h]
        rfl
      | @joined test _ _ _ ht hc h =>
        have inner := (lower test (ht ▸ List.mem_cons_self)).2
        simp only [ht, Test.toConditions, hc, named_combinator,
          (Test.mapM_toCondition_iff inner).mpr h]
        rfl

theorem toActions_ok_iff (commands : List Command) :
    (∃ actions, (toActions commands).1 = .ok actions) ↔
      ∀ command ∈ commands, command.block = none ∧ command.name ∉ ["if", "elsif", "else"] := by
  induction commands with
  | nil => simp [toActions]
  | cons command rest ih =>
    rw [toActions]
    by_cases nested : (command.block.isSome || command.isBranch) = true
    · rw [if_pos nested]
      constructor
      · rintro ⟨actions, h⟩
        cases h
      · intro flat
        obtain ⟨none, plain⟩ := flat command List.mem_cons_self
        simp [none, isBranch, plain] at nested
    · have plain : command.block = none ∧ command.name ∉ ["if", "elsif", "else"] := by
        simpa [isBranch] using nested
      rw [if_neg nested, List.forall_mem_cons, and_iff_right plain, ← ih]
      constructor
      · rintro ⟨actions, h⟩
        obtain ⟨later, hl, -⟩ := except_map_ok h
        exact ⟨later, hl⟩
      · rintro ⟨later, hl⟩
        exact ⟨_, congrArg (Except.map _) hl⟩

theorem toPolicy_ok (lower : branch.LowerTests) {policy : Policy}
    (h : branch.toPolicy.1 = .ok policy) :
    branch.IsFlat ∧ branch.Asks policy.combinator policy.conditions ∧ policy.active = true := by
  unfold toPolicy at h
  split at h
  · cases h
  · rename_i joint found asked
    obtain ⟨actions, ha, hp⟩ := except_map_ok h
    cases hp
    exact ⟨(toActions_ok_iff _).mp ⟨actions, ha⟩, (branchConditions_ok_iff lower).mp asked, rfl⟩

theorem toPolicy_error (lower : branch.LowerTests) {reason : Unrecoverable}
    (h : branch.toPolicy.1 = .error reason) : ¬ branch.IsConvertible := by
  rintro ⟨flat, c, conditions, asked⟩
  obtain ⟨actions, ha⟩ := (toActions_ok_iff _).mpr flat
  rw [toPolicy, (branchConditions_ok_iff lower).mpr asked] at h
  simp only [ha, Except.map] at h
  cases h

end Command

/-- One by one, branches are rules that are active and ask for the same, or cannot be rules. -/
inductive Converted : List Command → List Policy → Prop where
  | nil : Converted [] []
  | rule {branch : Command} {branches : List Command} {policy : Policy} {policies : List Policy}
      (flat : branch.IsFlat) (asks : branch.Asks policy.combinator policy.conditions)
      (active : policy.active = true) (later : Converted branches policies) :
      Converted (branch :: branches) (policy :: policies)
  | passed {branch : Command} {branches : List Command} {policies : List Policy}
      (h : ¬ branch.IsConvertible) (later : Converted branches policies) :
      Converted (branch :: branches) policies

namespace Token

theorem Reads.tag_lower {c : Char} {rest : List Char} {found : Scanned Token}
    (h : Reads c rest found) {name : String} (hv : found.value = .tag name) :
    lowerCase name = name := by
  cases h with
  | tag =>
    cases hv
    exact lowerCase_lowerCase _
  | punctuation hp =>
    unfold punctuation? at hp
    repeat' split at hp
    all_goals cases hp
    all_goals cases hv
  | number =>
    unfold scanNumber at hv
    simp only at hv
    repeat' split at hv
    all_goals cases hv
  | _ => cases hv

end Token

theorem tokenize_tag {text : String} {spans : List Span} (h : tokenize text = .ok spans)
    {name : String} (ht : Token.tag name ∈ meaning spans) : lowerCase name = name := by
  obtain ⟨c, rest, found, hs, hv⟩ := scan_of_mem_meaning h ht
  exact (Token.reads_of_scan hs).tag_lower hv

theorem Test.Head.name_lower {test : List Token → Test → Prop} {ts : List Token}
    {head : String × List Argument × List Test} (h : Head test ts head) :
    lowerCase head.1 = head.1 := by
  cases h
  exact lowerCase_lowerCase _

theorem Test.Derives.lower {levels : Nat} {ts : List Token} {test : Test}
    (h : Derives levels ts test)
    (tags : ∀ name, Token.tag name ∈ ts → lowerCase name = name) : test.Lower := by
  cases levels with
  | zero => exact h.elim
  | succ levels =>
    constructor
    · exact Head.name_lower h
    · intro name hn
      obtain ⟨us, hu, derived⟩ := Head.argument_of_mem h hn
      cases derived
      exact tags name (hu List.mem_cons_self)

theorem Script.tests_lower {text : String} {script : Script} (h : Script.parse text = .ok script)
    {command : Command} (hc : command ∈ script.commands) : command.LowerTests := by
  obtain ⟨spans, hspans, derived⟩ := Script.parse_ok_iff.mp h
  obtain ⟨ts, hts, form⟩ := derived.item_of_mem hc
  intro test ht
  obtain ⟨us, hus, htest⟩ := form.test_of_mem ht
  refine ⟨htest.lower fun name hn => tokenize_tag hspans (hts (hus hn)), ?_⟩
  intro t hi
  obtain ⟨vs, hvs, hinner⟩ := Test.Head.test_of_mem htest hi
  exact Test.Derives.lower hinner fun name hn => tokenize_tag hspans (hts (hus (hvs hn)))

theorem converted_policies {commands : List Command}
    (lower : ∀ command ∈ commands, command.LowerTests) :
    Converted (commands.filter Command.isBranch) (commands.filterMap Command.policy?) := by
  induction commands with
  | nil => exact .nil
  | cons command rest ih =>
    have later := ih fun c hc => lower c (List.mem_cons_of_mem _ hc)
    have own := lower command List.mem_cons_self
    by_cases hb : command.isBranch = true
    · rw [List.filter_cons_of_pos hb, List.filterMap_cons, Command.policy?, if_pos hb]
      cases hp : command.toPolicy.1 with
      | ok policy =>
        obtain ⟨flat, asks, active⟩ := Command.toPolicy_ok own hp
        exact .rule flat asks active later
      | error reason => exact .passed (Command.toPolicy_error own hp) later
    · rw [List.filter_cons_of_neg hb, List.filterMap_cons, Command.policy?, if_neg hb]
      exact later

namespace RuleSet

/-- Of a script that parses and has a branch, the branches whose tests are of the forms that rules
can hold, and whose blocks are flat, become active rules that ask for what these branches ask. The
other branches become none. -/
theorem branches_converted (text : String) (script : Script) (source : IdSource)
    (h : Script.parse text = .ok script)
    (branches : script.commands.any Command.isBranch = true) :
    ∃ set source', (parse text source).1 = .ok (set, source') ∧
      Converted (script.commands.filter Command.isBranch) set.policies := by
  obtain ⟨set, source', read, policies, -⟩ := parse_branches h branches source
  refine ⟨set, source', read, ?_⟩
  rw [policies, Script.recoverFrom_policies]
  exact converted_policies fun command hc => Script.tests_lower h hc

/-- Of each field the last word counts, presence is not compared, and a block can be too deep. -/
def choosy : String :=
  "if header :contains \"S\" :Comparator \"a\" :matches [\"b\"] :comparator \"\" \x7b keep; \x7d\n" ++
    "elsif AnyOf :is (exists \"T\", address :domain \"F\" []) \x7b \x7d\n" ++
    "elsif exists :is \"T\" \x7b \x7d\n" ++
    "elsif true \x7b if true \x7b \x7d \x7d else true \x7b stop; \x7d"

theorem choosy_converted :
    ∃ script, Script.parse choosy = .ok script ∧ script.commands.any Command.isBranch = true ∧
      Converted (script.commands.filter Command.isBranch)
        [⟨true, .allof, [.header "" .pattern "S" ["b"]], [.keep]⟩,
          ⟨true, .anyof, [.present ["T"], .address defaultComparator .is .domain "F" []], []⟩,
          ⟨true, .allof, [.always], [.stop]⟩] := by
  have found : (Script.parse choosy).toOption.map
      (fun script => (script.commands.any Command.isBranch,
        script.commands.filterMap Command.policy?)) = some (true,
          [⟨true, .allof, [.header "" .pattern "S" ["b"]], [.keep]⟩,
            ⟨true, .anyof, [.present ["T"], .address defaultComparator .is .domain "F" []], []⟩,
            ⟨true, .allof, [.always], [.stop]⟩]) := by
    decide +kernel
  obtain ⟨script, hs, read⟩ := Option.map_eq_some_iff.mp found
  have hs := except_ok_of_toOption hs
  obtain ⟨some, policies⟩ := Prod.mk.inj read
  obtain ⟨set, source', parsed, converted⟩ :=
    branches_converted choosy script (.startingAt 1) hs some
  obtain ⟨set', source'', again, same, -⟩ := parse_branches hs some (.startingAt 1)
  rw [parsed] at again
  cases again
  rw [same, Script.recoverFrom_policies, policies] at converted
  exact ⟨script, hs, some, converted⟩

end RuleSet

end SieveRules
