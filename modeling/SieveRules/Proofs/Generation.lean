import SieveRules.Layout.Lenient
import SieveRules.Proofs.Literals
import SieveRules.Proofs.Printing
import SieveRules.RuleSet.Script
/-!
The script that is generated for a filter reads back as the tree that the filter asks for, whatever
its strings hold. The one field that is not quoted is the limit of a size test, so the limits have
to be size literals; where one is not, the script means something else than the filter.
-/

namespace SieveRules

open Text

namespace Condition

/-- The limit of a size test is a size literal, or is left open. -/
def isSized : Condition → Bool
  | size _ limit => limit = "" || isSizeLiteral limit
  | _ => true

end Condition

/-- The size tests of the active rules have limits that are sizes. -/
def RuleSet.Sized (set : RuleSet) : Prop :=
  ∀ rule ∈ set.activeRules, ∀ condition ∈ rule.conditions, condition.isSized = true

instance (set : RuleSet) : Decidable set.Sized :=
  inferInstanceAs (Decidable (∀ rule ∈ set.activeRules, ∀ condition ∈ rule.conditions, _))

theorem match_type_printable (m : MatchType) : (Argument.tag m.word).Printable := by
  cases m <;> exact ⟨by decide, by decide⟩

theorem address_part_printable (p : AddressPart) : (Argument.tag p.word).Printable := by
  cases p <;> exact ⟨by decide, by decide⟩

theorem size_operator_printable (o : SizeOperator) : (Argument.tag o.word).Printable := by
  cases o <;> exact ⟨by decide, by decide⟩

theorem body_transform_printable (t : BodyTransform) : (Argument.tag t.word).Printable := by
  cases t <;> exact ⟨by decide, by decide⟩

theorem condition_kind_keyword (kind : ConditionKind) : IsKeyword kind.word := by
  cases kind <;> exact ⟨by decide, by decide⟩

theorem action_kind_keyword (kind : ActionKind) : IsKeyword kind.word := by
  cases kind <;> exact ⟨by decide, by decide⟩

theorem combinator_keyword (c : Combinator) : IsKeyword c.word := by
  cases c <;> exact ⟨by decide, by decide⟩

theorem size_literal_toString (n : Nat) : isSizeLiteral (toString n) = true := by
  have literal := size_literal_of_parts (toString_nonempty n) (toString_digits n) (.inl rfl)
  rwa [List.append_nil, String.ofList_toList] at literal

theorem flag_printable {name : String} {on : Bool} (h : (Argument.tag name).Printable) :
    ∀ a ∈ flagArguments name on, a.Printable := by
  intro a ha
  cases on with
  | false => simp [flagArguments] at ha
  | true =>
    obtain rfl : a = .tag name := by simpa [flagArguments] using ha
    exact h

theorem option_printable {name : String} {value : Option Argument}
    (h : (Argument.tag name).Printable) (hv : ∀ v ∈ value, v.Printable) :
    ∀ a ∈ optionArguments name value, a.Printable := by
  intro a ha
  cases value with
  | none => simp [optionArguments] at ha
  | some v =>
    simp only [optionArguments, List.mem_cons, List.not_mem_nil, or_false] at ha
    rcases ha with rfl | rfl
    · exact h
    · exact hv a rfl

theorem number_printable (n : Option UInt32) :
    ∀ a ∈ n.map fun n => Argument.number (toString n.toNat), a.Printable := by
  intro a ha
  obtain ⟨n, -, rfl⟩ := Option.map_eq_some_iff.mp ha
  exact size_literal_toString _

theorem string_printable (text : Option String) :
    ∀ a ∈ text.map Argument.string, a.Printable := by
  intro a ha
  obtain ⟨value, -, rfl⟩ := Option.map_eq_some_iff.mp ha
  trivial

theorem comparator_printable (name : String) :
    ∀ a ∈ comparatorArguments name, a.Printable := by
  have tag : (Argument.tag ":comparator").Printable := ⟨by decide, by decide⟩
  intro a ha
  unfold comparatorArguments at ha
  split at ha
  · simp only [List.mem_cons, List.not_mem_nil, or_false] at ha
    rcases ha with rfl | rfl
    · exact tag
    · trivial
  · simp at ha

theorem limit_printable {operator : SizeOperator} {limit : String}
    (h : (Condition.size operator limit).isSized = true) :
    (Argument.number (orDefault limit "0")).Printable := by
  simp only [Condition.isSized, Bool.or_eq_true, decide_eq_true_eq] at h
  change isSizeLiteral (orDefault limit "0") = true
  rcases h with rfl | h
  · decide
  · by_cases hl : limit = ""
    · subst hl; decide
    · rwa [orDefault, if_neg hl]

theorem names_printable (names : List String) :
    ∀ a ∈ (Condition.present names).toArguments, a.Printable := by
  intro a ha
  match names with
  | [] => obtain rfl : a = .string "" := by simpa [Condition.toArguments] using ha
          trivial
  | [name] => obtain rfl : a = .string name := by simpa [Condition.toArguments] using ha
              trivial
  | name :: next :: rest =>
    obtain rfl : a = .stringList (name :: next :: rest) := by
      simpa [Condition.toArguments] using ha
    trivial

theorem Condition.arguments_printable {condition : Condition} (h : condition.isSized = true) :
    ∀ a ∈ condition.toArguments, a.Printable := by
  cases condition with
  | header comparator m name keys =>
    simp only [toArguments, List.forall_mem_append, List.forall_mem_cons]
    exact ⟨⟨match_type_printable m, comparator_printable comparator⟩, trivial, trivial, by simp⟩
  | address comparator m part name keys | envelope comparator m part name keys =>
    simp only [toArguments, List.forall_mem_append, List.forall_mem_cons]
    exact ⟨⟨match_type_printable m, address_part_printable part, comparator_printable comparator⟩,
      trivial, trivial, by simp⟩
  | size operator limit =>
    simp only [toArguments, List.forall_mem_cons]
    exact ⟨size_operator_printable operator, limit_printable h, by simp⟩
  | body comparator m transform keys =>
    simp only [toArguments, List.forall_mem_append, List.forall_mem_cons]
    exact ⟨⟨match_type_printable m, body_transform_printable transform,
      comparator_printable comparator⟩, trivial, by simp⟩
  | present names => exact names_printable names
  | always => simp [toArguments]
  | never => simp [toArguments]

theorem Action.arguments_printable (action : Action) :
    ∀ a ∈ action.toArguments, a.Printable := by
  cases action with
  | keep => simp [toArguments]
  | discard => simp [toArguments]
  | stop => simp [toArguments]
  | reject reason =>
    simp only [toArguments, List.forall_mem_cons]
    exact ⟨trivial, by simp⟩
  | fileinto mailbox create copy flags =>
    simp only [toArguments, List.forall_mem_append, List.forall_mem_cons]
    refine ⟨⟨⟨flag_printable ⟨by decide, by decide⟩, ?_⟩, flag_printable ⟨by decide, by decide⟩⟩,
      trivial, by simp⟩
    split
    · simp
    · simp only [List.forall_mem_cons]
      exact ⟨⟨by decide, by decide⟩, trivial, by simp⟩
  | redirect address copy =>
    simp only [toArguments, List.forall_mem_append, List.forall_mem_cons]
    exact ⟨flag_printable ⟨by decide, by decide⟩, trivial, by simp⟩
  | addheader name value last =>
    simp only [toArguments, List.forall_mem_append, List.forall_mem_cons]
    exact ⟨flag_printable ⟨by decide, by decide⟩, trivial, trivial, by simp⟩
  | deleteheader name value index last m comparator =>
    simp only [toArguments, List.forall_mem_append, List.forall_mem_cons]
    refine ⟨⟨⟨⟨?_, flag_printable ⟨by decide, by decide⟩⟩, ?_⟩, ?_⟩, trivial, ?_⟩
    · exact option_printable ⟨by decide, by decide⟩ (number_printable index)
    · intro a ha
      obtain ⟨m', -, rfl⟩ := Option.map_eq_some_iff.mp (Option.mem_toList.mp ha)
      exact match_type_printable m'
    · exact option_printable ⟨by decide, by decide⟩ (string_printable _)
    · intro a ha
      exact string_printable _ a (Option.mem_toList.mp ha)
  | vacation days subject message =>
    simp only [toArguments, List.forall_mem_append, List.forall_mem_cons]
    refine ⟨⟨?_, ?_⟩, trivial, by simp⟩
    · exact option_printable ⟨by decide, by decide⟩ (number_printable _)
    · exact option_printable ⟨by decide, by decide⟩ (string_printable _)

theorem Condition.test_printable {condition : Condition} (h : condition.isSized = true)
    (levels : Nat) : condition.toTest.Printable (levels + 1) := by
  refine ⟨condition_kind_keyword _, condition.arguments_printable h, ?_⟩
  intro t ht
  simp [toTest] at ht

theorem Action.command_printable (action : Action) (levels : Nat) :
    action.toCommand.Printable levels := by
  have head : action.toCommand.HeadPrintable levels :=
    ⟨action_kind_keyword _, action.arguments_printable, by simp [toCommand]⟩
  cases levels with
  | zero => exact ⟨head, rfl⟩
  | succ levels => exact ⟨head, by simp [toCommand]⟩

namespace Policy

theorem test_printable {policy : Policy}
    (h : ∀ condition ∈ policy.conditions, condition.isSized = true) (levels : Nat) :
    policy.toTest.Printable (levels + 2) := by
  unfold toTest
  split
  · exact Condition.test_printable (by decide) _
  · rename_i condition hc
    exact Condition.test_printable (h condition (by simp [hc])) _
  · refine ⟨combinator_keyword _, by simp, ?_⟩
    intro t ht
    obtain ⟨condition, hc, rfl⟩ := List.mem_map.mp ht
    exact Condition.test_printable (h condition hc) _

theorem command_printable {policy : Policy} {keyword : String} (hk : IsKeyword keyword)
    (h : ∀ condition ∈ policy.conditions, condition.isSized = true) (levels : Nat) :
    (policy.toCommand keyword).Printable (levels + 2) := by
  refine ⟨⟨hk, by simp [toCommand], ?_⟩, ?_⟩
  · intro t ht
    obtain rfl : t = policy.toTest := by simpa [toCommand] using ht
    exact test_printable h levels
  · intro body hb c hc
    obtain rfl : policy.actions.map Action.toCommand = body := by simpa [toCommand] using hb
    obtain ⟨action, -, rfl⟩ := List.mem_map.mp hc
    exact action.command_printable _

theorem chain_eq_zipIdx (policies : List Policy) :
    chain policies = policies.zipIdx.map fun (policy, i) =>
      policy.toCommand (if i = 0 then "if" else "elsif") := by
  cases policies with
  | nil => rfl
  | cons first rest =>
    have later : ∀ (items : List Policy) (k : Nat), items.map (toCommand "elsif") =
        (items.zipIdx (k + 1)).map fun (policy, i) =>
          policy.toCommand (if i = 0 then "if" else "elsif") := by
      intro items
      induction items with
      | nil => intro k; rfl
      | cons policy items ih => intro k; simp [ih (k + 1)]
    rw [chain, later rest 0, List.zipIdx_cons, List.map_cons]
    rfl

theorem chain_printable {policies : List Policy}
    (h : ∀ policy ∈ policies, ∀ condition ∈ policy.conditions, condition.isSized = true)
    (levels : Nat) : ∀ command ∈ chain policies, command.Printable (levels + 2) := by
  intro command hc
  cases policies with
  | nil => simp [chain] at hc
  | cons first rest =>
    rcases List.mem_cons.mp hc with rfl | hc
    · exact command_printable ⟨by decide, by decide⟩ (h first List.mem_cons_self) levels
    · obtain ⟨policy, hp, rfl⟩ := List.mem_map.mp hc
      exact command_printable ⟨by decide, by decide⟩ (h policy (List.mem_cons_of_mem _ hp)) levels

theorem toTest_cites {policy : Policy} {condition : Condition} (hc : condition ∈ policy.conditions)
    {a : Argument} (ha : a ∈ condition.toArguments) : policy.toTest.Cites a := by
  unfold toTest
  split
  · simp_all
  · rename_i only he
    obtain rfl : condition = only := by simpa [he] using hc
    exact .here ha
  · exact .inner (List.mem_map_of_mem hc) (.here ha)

end Policy

def MatchType.tag : MatchType → Argument
  | is => .tag ":is"
  | contains => .tag ":contains"
  | pattern => .tag ":matches"

def AddressPart.tag : AddressPart → Argument
  | all => .tag ":all"
  | localpart => .tag ":localpart"
  | domain => .tag ":domain"

def SizeOperator.tag : SizeOperator → Argument
  | larger => .tag ":over"
  | smaller => .tag ":under"

def BodyTransform.tag : BodyTransform → Argument
  | text => .tag ":text"
  | raw => .tag ":raw"
  | content => .tag ":content"

def intendedComparator (name : String) : List Argument :=
  if name = "" ∨ name = "i;ascii-casemap" then [] else [.tag ":comparator", .string name]

def listInFull (strings : List String) : List String :=
  if strings = [] then [""] else strings

/-- The test that a condition asks for, spelled out kind by kind and apart from the way in which
scripts are made. -/
def Condition.intended : Condition → Test
  | header comparator m name keys =>
    ⟨"header", [m.tag] ++ intendedComparator comparator ++
      [.string name, .stringList (listInFull keys)], []⟩
  | address comparator m part name keys =>
    ⟨"address", [m.tag, part.tag] ++ intendedComparator comparator ++
      [.string name, .stringList (listInFull keys)], []⟩
  | envelope comparator m part name keys =>
    ⟨"envelope", [m.tag, part.tag] ++ intendedComparator comparator ++
      [.string name, .stringList (listInFull keys)], []⟩
  | size operator limit =>
    ⟨"size", [operator.tag, .number (if limit = "" then "0" else limit)], []⟩
  | body comparator m transform keys =>
    ⟨"body", [m.tag, transform.tag] ++ intendedComparator comparator ++
      [.stringList (listInFull keys)], []⟩
  | present [] => ⟨"exists", [.string ""], []⟩
  | present [name] => ⟨"exists", [.string name], []⟩
  | present names => ⟨"exists", [.stringList names], []⟩
  | always => ⟨"true", [], []⟩
  | never => ⟨"false", [], []⟩

/-- The command that an action asks for, spelled out kind by kind. -/
def Action.intended : Action → Command
  | keep => ⟨"keep", [], [], none⟩
  | fileinto mailbox create copy flags =>
    ⟨"fileinto",
      (if create then [.tag ":create"] else []) ++
        (if flags = [] then [] else [.tag ":flags", .stringList flags]) ++
        (if copy then [.tag ":copy"] else []) ++
        [.string (if mailbox = "" then "INBOX" else mailbox)], [], none⟩
  | redirect address copy =>
    ⟨"redirect", (if copy then [.tag ":copy"] else []) ++ [.string address], [], none⟩
  | discard => ⟨"discard", [], [], none⟩
  | reject reason => ⟨"reject", [.string reason], [], none⟩
  | addheader name value last =>
    ⟨"addheader", (if last then [.tag ":last"] else []) ++ [.string name, .string value], [], none⟩
  | deleteheader name value index last m comparator =>
    ⟨"deleteheader",
      (index.elim [] fun n => [.tag ":index", .number (toString n.toNat)]) ++
        (if last then [.tag ":last"] else []) ++
        (m.elim [] fun m => [m.tag]) ++
        comparator.elim [] intendedComparator ++
        [.string name] ++
        (value.elim [] fun text => if text = "" then [] else [.string text]), [], none⟩
  | stop => ⟨"stop", [], [], none⟩
  | vacation days subject message =>
    ⟨"vacation",
      (days.elim [] fun n => if n = 0 then [] else [.tag ":days", .number (toString n.toNat)]) ++
        (subject.elim [] fun text => if text = "" then [] else [.tag ":subject", .string text]) ++
        [.string message], [], none⟩

/-- The test that a rule asks for. Several conditions are combined, and a rule without any always
applies. -/
def Policy.intendedTest (policy : Policy) : Test :=
  match policy.conditions with
  | [] => ⟨"true", [], []⟩
  | [condition] => condition.intended
  | conditions =>
    match policy.combinator with
    | .anyof => ⟨"anyof", [], conditions.map Condition.intended⟩
    | .allof => ⟨"allof", [], conditions.map Condition.intended⟩

theorem match_type_tag (m : MatchType) : Argument.tag m.word = m.tag := by
  cases m <;> rfl

theorem address_part_tag (p : AddressPart) : Argument.tag p.word = p.tag := by
  cases p <;> rfl

theorem size_operator_tag (o : SizeOperator) : Argument.tag o.word = o.tag := by
  cases o <;> rfl

theorem body_transform_tag (t : BodyTransform) : Argument.tag t.word = t.tag := by
  cases t <;> rfl

theorem comparatorArguments_eq_intended (name : String) :
    comparatorArguments name = intendedComparator name := by
  unfold comparatorArguments intendedComparator isExplicitComparator defaultComparator
  by_cases empty : name = ""
  · simp [empty]
  · by_cases default : name = "i;ascii-casemap" <;> simp [empty, default]

theorem keysArgument_eq (keys : List String) :
    keysArgument keys = .stringList (listInFull keys) := by
  cases keys <;> rfl

theorem optionArguments_map {α : Type} (tag : String) (written : α → Argument) (value : Option α) :
    optionArguments tag (value.map written) = value.elim [] fun a => [.tag tag, written a] := by
  cases value <;> rfl

/-- An option is left out where it has the value that says nothing. -/
theorem optionArguments_filter_ne {α : Type} [DecidableEq α] (tag : String) (void : α)
    (written : α → Argument) (value : Option α) :
    optionArguments tag ((value.filter (· ≠ void)).map written) =
      value.elim [] fun a => if a = void then [] else [.tag tag, written a] := by
  cases value with
  | none => rfl
  | some a => by_cases h : a = void <;> simp [optionArguments, Option.filter, h]

theorem comparatorArguments_eq (name : String) :
    comparatorArguments name =
      optionArguments ":comparator" (((some name).filter isExplicitComparator).map .string) := by
  unfold comparatorArguments
  cases h : isExplicitComparator name <;> simp [Option.filter, h, optionArguments]

theorem optionArguments_comparator (comparator : Option String) :
    optionArguments ":comparator" ((comparator.filter isExplicitComparator).map .string) =
      comparator.elim [] intendedComparator := by
  cases comparator with
  | none => rfl
  | some name =>
    exact (comparatorArguments_eq name).symm.trans (comparatorArguments_eq_intended name)

theorem nonempty_arguments (value : Option String) :
    ((nonempty? value).map Argument.string).toList =
      value.elim [] fun text => if text = "" then [] else [.string text] := by
  cases value with
  | none => rfl
  | some text => by_cases h : text = "" <;> simp [nonempty?, Option.filter, h]

theorem Condition.toTest_eq_intended (condition : Condition) :
    condition.toTest = condition.intended := by
  cases condition with
  | header | address | envelope | body =>
    simp only [toTest, kind, toArguments, intended, match_type_tag, address_part_tag,
      body_transform_tag, comparatorArguments_eq_intended, keysArgument_eq]
    rfl
  | size operator limit =>
    simp only [toTest, kind, toArguments, intended, size_operator_tag, orDefault]
    rfl
  | present names =>
    rcases names with _ | ⟨name, _ | ⟨next, rest⟩⟩
    · rfl
    · rfl
    · rfl
  | always => rfl
  | never => rfl

theorem Policy.toTest_eq_intended (policy : Policy) : policy.toTest = policy.intendedTest := by
  obtain ⟨active, combinator, conditions, actions⟩ := policy
  rcases conditions with _ | ⟨condition, _ | ⟨next, rest⟩⟩
  · rfl
  · exact condition.toTest_eq_intended
  · simp only [toTest, intendedTest, ← funext Condition.toTest_eq_intended]
    cases combinator <;> rfl

theorem Action.toCommand_eq_intended (action : Action) : action.toCommand = action.intended := by
  cases action with
  | keep | discard | stop | reject | redirect | addheader => rfl
  | fileinto mailbox create copy flags =>
    simp only [toCommand, kind, toArguments, intended, orDefault, List.isEmpty_iff]
    rfl
  | deleteheader name value index last m comparator =>
    have matched : (m.map fun m => Argument.tag m.word).toList = m.elim [] fun m => [m.tag] := by
      cases m with
      | none => rfl
      | some m => exact congrArg ([·]) (match_type_tag m)
    simp only [toCommand, kind, toArguments, intended, matched, optionArguments_comparator,
      nonempty_arguments, List.append_assoc]
    rw [optionArguments_map]
    rfl
  | vacation days subject message =>
    simp only [toCommand, kind, toArguments, intended, nonempty?, optionArguments_filter_ne]
    rfl

namespace RuleSet

theorem require_printable (set : RuleSet) (levels : Nat) :
    ∀ command ∈ set.requireCommands, command.Printable (levels + 1) := by
  intro command hc
  unfold requireCommands at hc
  split at hc
  · simp at hc
  · obtain rfl := List.mem_singleton.mp hc
    have keyword : IsKeyword "require" := ⟨by decide, by decide⟩
    refine ⟨⟨keyword, ?_, by simp⟩, by simp⟩
    intro a ha
    obtain rfl := List.mem_singleton.mp ha
    trivial

theorem script_printable {set : RuleSet} (h : set.Sized) : set.toScript.Printable := by
  intro command hc
  rcases List.mem_append.mp hc with hc | hc
  · exact require_printable set _ command hc
  · refine Policy.chain_printable (fun policy hp => ?_) _ command hc
    obtain ⟨rule, hr, rfl⟩ := List.mem_map.mp hp
    exact h rule hr

theorem parse_generate {set : RuleSet} (h : set.Sized) :
    Script.parse set.generate = .ok set.toScript :=
  Script.parse_render (script_printable h)

/-- The script of a filter parses to the tree that the filter asks for: what it requires, and one
branch for each active rule, with the test of its conditions and the commands of its actions. -/
theorem generated_script_is_intended_tree (set : RuleSet) (h : set.Sized) :
    Script.parse set.generate = .ok ⟨
      (if set.requires = [] then [] else [⟨"require", [.stringList set.requires], [], none⟩]) ++
        set.activeRules.zipIdx.map fun (rule, i) =>
          ⟨if i = 0 then "if" else "elsif", [], [rule.toPolicy.intendedTest],
            some (rule.actions.map Action.intended)⟩⟩ := by
  have required : set.requireCommands =
      if set.requires = [] then [] else [⟨"require", [.stringList set.requires], [], none⟩] := by
    simp only [requireCommands, List.isEmpty_iff]
  rw [parse_generate h, toScript, required, Policy.chain_eq_zipIdx, List.zipIdx_map, List.map_map,
    ← funext Policy.toTest_eq_intended, ← funext Action.toCommand_eq_intended]
  rfl

/-- All kinds of tests and actions, with strings that would end a string, a test or a block if they
were pasted in as they are. -/
def hostile : RuleSet :=
  ⟨[⟨⟨true, .anyof,
      [.header "" .contains "Subject\"" ["a\\", "*/ \x7d /*", "# x\n.\n"], .size .smaller "10K",
        .address "i;octet" .is .domain "From" [],
        .envelope "i;ascii-casemap" .pattern .localpart "to" ["\", \""]],
      [.fileinto "" true false [], .vacation (some 7) (some "") "\"; stop;", .keep]⟩, ⟨"id_1"⟩⟩,
    ⟨⟨false, .anyof, [], [.keep]⟩, ⟨"id_2"⟩⟩,
    ⟨⟨true, .allof,
      [.body "" .is .raw ["\x7b"], .present ["A", "B\\"], .present [], .size .larger "", .always,
        .never],
      [.fileinto "x\ny" false true ["\\Seen"], .redirect "a@b" true, .reject "text:",
        .addheader "X" "\\" true,
        .deleteheader "Y" (some "v") (some 2) true (some .is) (some "i;octet"),
        .vacation (some 0) (some "Away") "", .discard, .stop]⟩, ⟨"id_3"⟩⟩],
    .standard⟩

theorem hostile_script_is_intended_tree :
    hostile.Sized ∧ Script.parse hostile.generate = .ok ⟨
      [⟨"require", [.stringList ["fileinto"]], [], none⟩,
        ⟨"if", [],
          [⟨"anyof", [],
            [⟨"header", [.tag ":contains", .string "Subject\"",
                .stringList ["a\\", "*/ \x7d /*", "# x\n.\n"]], []⟩,
              ⟨"size", [.tag ":under", .number "10K"], []⟩,
              ⟨"address", [.tag ":is", .tag ":domain", .tag ":comparator", .string "i;octet",
                .string "From", .stringList [""]], []⟩,
              ⟨"envelope", [.tag ":matches", .tag ":localpart", .string "to",
                .stringList ["\", \""]], []⟩]⟩],
          some
            [⟨"fileinto", [.tag ":create", .string "INBOX"], [], none⟩,
              ⟨"vacation", [.tag ":days", .number "7", .string "\"; stop;"], [], none⟩,
              ⟨"keep", [], [], none⟩]⟩,
        ⟨"elsif", [],
          [⟨"allof", [],
            [⟨"body", [.tag ":is", .tag ":raw", .stringList ["\x7b"]], []⟩,
              ⟨"exists", [.stringList ["A", "B\\"]], []⟩, ⟨"exists", [.string ""], []⟩,
              ⟨"size", [.tag ":over", .number "0"], []⟩, ⟨"true", [], []⟩, ⟨"false", [], []⟩]⟩],
          some
            [⟨"fileinto", [.tag ":flags", .stringList ["\\Seen"], .tag ":copy", .string "x\ny"], [],
                none⟩,
              ⟨"redirect", [.tag ":copy", .string "a@b"], [], none⟩,
              ⟨"reject", [.string "text:"], [], none⟩,
              ⟨"addheader", [.tag ":last", .string "X", .string "\\"], [], none⟩,
              ⟨"deleteheader", [.tag ":index", .number "2", .tag ":last", .tag ":is",
                .tag ":comparator", .string "i;octet", .string "Y", .string "v"], [], none⟩,
              ⟨"vacation", [.tag ":subject", .string "Away", .string ""], [], none⟩,
              ⟨"discard", [], [], none⟩, ⟨"stop", [], [], none⟩]⟩]⟩ := by
  have sized : hostile.Sized := by decide
  exact ⟨sized, (generated_script_is_intended_tree hostile sized).trans (by rfl)⟩

end RuleSet

structure Rule.Frames (rule : Rule) (place : Nat) (command : Command) : Prop where
  named : command.name = if place = 0 then "if" else "elsif"
  one_test : command.tests.length = 1
  actions : ∃ block, command.block = some block ∧ block.length = rule.actions.length

namespace RuleSet

/-- The script has at most one requirement, in front, and then a branch for each active rule. -/
def Frames (set : RuleSet) (script : Script) : Prop :=
  ∃ required branches, script.commands = required ++ branches ∧
    required.length ≤ 1 ∧ (∀ command ∈ required, command.name = "require") ∧
    branches.length = set.activeRules.length ∧
    ∀ (place : Nat) (rule : Rule) (command : Command), set.activeRules[place]? = some rule →
      branches[place]? = some command → rule.Frames place command

theorem toScript_frames (set : RuleSet) : set.Frames set.toScript := by
  refine ⟨set.requireCommands, Policy.chain (set.activeRules.map Rule.toPolicy), rfl, ?_, ?_, ?_,
    ?_⟩
  · unfold requireCommands
    split <;> simp
  · intro command hc
    unfold requireCommands at hc
    split at hc
    · cases hc
    · rw [List.mem_singleton.mp hc]
  · simp [Policy.chain_eq_zipIdx]
  · intro place rule command hr hc
    simp only [Policy.chain_eq_zipIdx, List.getElem?_map, List.getElem?_zipIdx, hr, Option.map_some,
      Option.some.injEq, Nat.zero_add] at hc
    subst hc
    exact ⟨rfl, rfl, _, rfl, List.length_map _⟩

theorem toScript_tests (set : RuleSet) : set.toScript.commands.flatMap Command.tests =
    set.activeRules.map fun rule => rule.toPolicy.toTest := by
  have required : set.requireCommands.flatMap Command.tests = [] := by
    unfold requireCommands
    split <;> rfl
  have branches : ∀ policies : List Policy,
      (Policy.chain policies).flatMap Command.tests = policies.map Policy.toTest := by
    intro policies
    cases policies with
    | nil => rfl
    | cons first rest =>
      simp only [Policy.chain, Policy.toCommand, List.flatMap_cons, List.flatMap_map,
        List.map_cons, List.singleton_append]
      rw [← List.map_eq_flatMap]
  rw [toScript, List.flatMap_append, required, branches, List.map_map]
  rfl

theorem sized_of_tests {set : RuleSet} {text : String} {script : Script}
    (h : Script.parse text = .ok script) (ht : script.commands.flatMap Command.tests =
      set.activeRules.map fun rule => rule.toPolicy.toTest) : set.Sized := by
  intro rule hr condition hc
  cases condition with
  | size operator limit =>
    by_cases hl : limit = ""
    · simp [Condition.isSized, hl]
    · have cited : rule.toPolicy.toTest.Cites (.number limit) := by
        apply Policy.toTest_cites hc
        simp [Condition.toArguments, orDefault, hl]
      have listed : rule.toPolicy.toTest ∈ script.commands.flatMap Command.tests := by
        rw [ht]
        exact List.mem_map_of_mem hr
      obtain ⟨command, hcommand, htest⟩ := List.mem_flatMap.mp listed
      simp [Condition.isSized, Script.number_literal h hcommand htest cited]
  | _ => rfl

/-- A stored filter gives a script of its own form and with its own tests exactly where the limits
of its size tests are sizes. -/
theorem stored_script_is_filter_iff_sized (text : String) (source : IdSource) :
    let set := (decode text source).1.1
    set.Sized ↔ ∃ script, Script.parse set.generate = .ok script ∧ set.Frames script ∧
      script.commands.flatMap Command.tests =
        set.activeRules.map fun rule => rule.toPolicy.intendedTest := by
  intro set
  rw [← funext Policy.toTest_eq_intended]
  constructor
  · intro sized
    exact ⟨set.toScript, parse_generate sized, set.toScript_frames, set.toScript_tests⟩
  · rintro ⟨script, parsed, -, tests⟩
    exact sized_of_tests parsed tests

/-- A stored limit that closes its branch and opens another one. -/
def injecting : String :=
  "\x7b\"rules\": [\x7b\"conditions\": [\x7b\"type\": \"size\", " ++
    "\"size\": \"1 \x7b discard; \x7d elsif true\"\x7d], " ++
    "\"actions\": [\x7b\"type\": \"keep\"\x7d]\x7d]\x7d"

theorem injecting_decoded : (decode injecting (.startingAt 1)).1.1 =
    ⟨[Policy.named ⟨true, .anyof, [.size .larger "1 \x7b discard; \x7d elsif true"], [.keep]⟩
      (.numbered 1)], .empty⟩ := by
  decide +kernel

theorem stored_limit_adds_branch :
    let set := (decode injecting (.startingAt 1)).1.1
    ¬ ∃ script, Script.parse set.generate = .ok script ∧ set.Frames script := by
  rw [injecting_decoded]
  rintro set ⟨script, parsed, required, branches, commands, short, named, count, -⟩
  have one_rule : set.activeRules.length = 1 := rfl
  have two_branches : (Script.parse set.generate).toOption.map
      (fun script => script.commands.map Command.name) = some ["if", "elsif"] := by
    decide +kernel
  rw [parsed] at two_branches
  simp only [Except.toOption, Option.map_some, Option.some.injEq, commands, List.map_append]
    at two_branches
  have total := congrArg List.length two_branches
  simp only [List.length_append, List.length_map, List.length_cons, List.length_nil, count,
    one_rule] at total
  obtain ⟨command, rfl⟩ := List.length_eq_one_iff.mp (show required.length = 1 by omega)
  have name := named command List.mem_cons_self
  simp [name] at two_branches

end RuleSet

end SieveRules
