import SieveRules.Proofs.Regeneration
import SieveRules.Proofs.Requirements
/-!
Which filters are written alike. A script leaves nothing of a filter open but its defaults: what
differs in two filters after the defaults are filled in differs in their scripts. This covers the
tests and actions that have no way back from a script, too.
-/

namespace SieveRules

/-- The condition with all its defaults filled in, whether a script gives it back or not. -/
def Condition.explicit : Condition → Condition
  | envelope comparator m part name keys =>
    envelope (comparatorInFull comparator) m part name (listInFull keys)
  | size operator limit => size operator (if limit = "" then "0" else limit)
  | body comparator m transform keys =>
    body (comparatorInFull comparator) m transform (listInFull keys)
  | condition => condition.filled

/-- The action with all its defaults filled in, or left out where leaving them out is as good. -/
def Action.explicit : Action → Action
  | deleteheader name value index last m comparator =>
    deleteheader name (if value = some "" then none else value) index last m
      (if comparator = some "" ∨ comparator = some "i;ascii-casemap" then none else comparator)
  | action => action.filled

/-- The policy with all its defaults filled in. Where there is nothing to combine, there is one
way to combine it. -/
def Policy.explicit (policy : Policy) : Policy where
  active := policy.active
  combinator := if policy.conditions.length < 2 then .allof else policy.combinator
  conditions :=
    if policy.conditions.isEmpty then [.always] else policy.conditions.map Condition.explicit
  actions := policy.actions.map Action.explicit

theorem Condition.toTest_explicit (condition : Condition) :
    condition.explicit.toTest = condition.toTest := by
  cases condition with
  | envelope comparator m part name keys | body comparator m part keys =>
    simp only [explicit, toTest, kind, toArguments, comparatorArguments_filled, keysArgument_filled]
  | size operator limit => simp only [explicit, toTest, kind, toArguments, orDefault_filled]
  | _ => simp only [explicit, toTest_filled]

theorem filter_explicit_eq_ite (comparator : Option String) :
    comparator.filter isExplicitComparator =
      if comparator = some "" ∨ comparator = some "i;ascii-casemap" then none else comparator := by
  cases comparator with
  | none => rfl
  | some name =>
    by_cases empty : name = ""
    · simp [empty, isExplicitComparator, Option.filter]
    · by_cases default : name = "i;ascii-casemap" <;>
        simp [empty, default, isExplicitComparator, defaultComparator, Option.filter]

theorem Action.explicit_deleteheader (name : String) (value : Option String)
    (index : Option UInt32) (last : Bool) (m : Option MatchType) (comparator : Option String) :
    (deleteheader name value index last m comparator).explicit =
      deleteheader name (nonempty? value) index last m
        (comparator.filter isExplicitComparator) := by
  rw [nonempty?, filter_ne_eq_ite, filter_explicit_eq_ite]
  rfl

theorem Action.toCommand_explicit (action : Action) :
    action.explicit.toCommand = action.toCommand := by
  cases action with
  | deleteheader name value index last m comparator =>
    rw [explicit_deleteheader]
    simp only [toCommand, kind, toArguments, nonempty?, Option.filter_filter, Bool.and_self]
  | _ => simp only [explicit, toCommand_filled]

namespace Policy

theorem toTest_explicit (policy : Policy) : policy.explicit.toTest = policy.toTest := by
  obtain ⟨active, combinator, conditions, actions⟩ := policy
  rcases conditions with _ | ⟨condition, _ | ⟨next, rest⟩⟩
  · rfl
  · exact condition.toTest_explicit
  · have several : ¬ rest.length + 1 + 1 < 2 := by omega
    simp [explicit, toTest, Condition.toTest_explicit, several]

theorem toCommand_explicit (policy : Policy) (keyword : String) :
    policy.explicit.toCommand keyword = policy.toCommand keyword := by
  have actions : policy.explicit.actions.map Action.toCommand =
      policy.actions.map Action.toCommand := by
    rw [explicit, List.map_map]
    exact List.map_congr_left fun action _ => action.toCommand_explicit
  simp only [toCommand, toTest_explicit, actions]

theorem chain_explicit (policies : List Policy) :
    chain (policies.map explicit) = chain policies := by
  cases policies with
  | nil => rfl
  | cons first rest =>
    rw [List.map_cons, chain, chain, List.map_map, toCommand_explicit]
    congr 1
    exact List.map_congr_left fun policy _ => policy.toCommand_explicit "elsif"

end Policy

namespace Argument

/-- The arguments do not begin with this tag. -/
def Apart (name : String) (arguments : List Argument) : Prop :=
  arguments.head? ≠ some (.tag name)

variable {name other : String} {rest rest' : List Argument}

theorem apart_string (value : String) : Apart name (string value :: rest) :=
  nofun

theorem apart_stringList (items : List String) : Apart name (stringList items :: rest) :=
  nofun

theorem apart_tag (h : other ≠ name) : Apart name (tag other :: rest) := by
  rintro ⟨⟩
  exact h rfl

theorem Apart.option (hr : Apart name rest) (h : other ≠ name) (value : Option Argument) :
    Apart name (optionArguments other value ++ rest) := by
  cases value with
  | none => exact hr
  | some value => exact apart_tag h

theorem Apart.flag (hr : Apart name rest) (h : other ≠ name) (on : Bool) :
    Apart name (flagArguments other on ++ rest) := by
  cases on with
  | false => exact hr
  | true => exact apart_tag h

theorem Apart.word {α : Type} [Vocabulary α] (hr : Apart name rest)
    (h : ∀ a : α, Vocabulary.word a ≠ name) (value : Option α) :
    Apart name ((value.map fun a => tag (Vocabulary.word a)).toList ++ rest) := by
  cases value with
  | none => exact hr
  | some value => exact apart_tag (h value)

/-- Where the arguments behind an option do not look like it, what is there tells them apart. -/
theorem option_split {value value' : Option Argument} (hr : Apart name rest)
    (hr' : Apart name rest')
    (same : optionArguments name value ++ rest = optionArguments name value' ++ rest') :
    value = value' ∧ rest = rest' := by
  cases value <;> cases value'
  · exact ⟨rfl, same⟩
  · exact absurd (congrArg List.head? same) hr
  · exact absurd (congrArg List.head? same).symm hr'
  · simpa [optionArguments] using same

theorem flag_split {on on' : Bool} (hr : Apart name rest) (hr' : Apart name rest')
    (same : flagArguments name on ++ rest = flagArguments name on' ++ rest') :
    on = on' ∧ rest = rest' := by
  cases on <;> cases on'
  · exact ⟨rfl, same⟩
  · exact absurd (congrArg List.head? same) hr
  · exact absurd (congrArg List.head? same).symm hr'
  · exact ⟨rfl, List.append_cancel_left same⟩

theorem string_options_eq {value value' : Option String}
    (h : value.map string = value'.map string) : value = value' :=
  Option.map_injective (fun _ _ => string.inj) h

theorem number_options_eq {n n' : Option UInt32}
    (h : (n.map fun n => number (toString n.toNat)) = n'.map fun n => number (toString n.toNat)) :
    n = n' := by
  refine Option.map_injective ?_ h
  intro a b same
  have digits := congrArg (fun s : String => Text.decimal s.toList) (number.inj same)
  simp only [decimal_toString] at digits
  exact UInt32.toNat_inj.mp digits

theorem word_split {α : Type} [Vocabulary α] {m m' : Option α}
    (hr : ∀ a : α, Apart (Vocabulary.word a) rest) (hr' : ∀ a : α, Apart (Vocabulary.word a) rest')
    (same : (m.map fun a => tag (Vocabulary.word a)).toList ++ rest =
      (m'.map fun a => tag (Vocabulary.word a)).toList ++ rest') : m = m' ∧ rest = rest' := by
  cases m with
  | none =>
    cases m' with
    | none => exact ⟨rfl, same⟩
    | some a' => exact absurd (congrArg List.head? same) (hr a')
  | some a =>
    cases m' with
    | none => exact absurd (congrArg List.head? same).symm (hr' a)
    | some a' =>
      obtain ⟨word, same⟩ := List.cons.inj same
      exact ⟨congrArg some (Vocabulary.word_injective (tag.inj word)), same⟩

end Argument

theorem comparator_split {name name' : String} {rest rest' : List Argument}
    (hr : Argument.Apart ":comparator" rest) (hr' : Argument.Apart ":comparator" rest')
    (same : comparatorArguments name ++ rest = comparatorArguments name' ++ rest') :
    comparatorInFull name = comparatorInFull name' ∧ rest = rest' := by
  rw [comparatorArguments_eq, comparatorArguments_eq] at same
  obtain ⟨chosen, rfl⟩ := Argument.option_split hr hr' same
  have shown := congrArg (·.getD defaultComparator) (Argument.string_options_eq chosen)
  simp only [Option.filter_some, comparator_filled] at shown
  exact ⟨shown, rfl⟩

theorem keysArgument_inj {keys keys' : List String} (h : keysArgument keys = keysArgument keys') :
    listInFull keys = listInFull keys' := by
  rw [keysArgument_eq, keysArgument_eq] at h
  exact Argument.stringList.inj h

namespace Condition

theorem present_arguments (names : List String) :
    (present names).toArguments.map Argument.strings? =
      [some (listInFull names)] := by
  match names with
  | [] => rfl
  | [name] => rfl
  | name :: next :: rest => rfl

theorem named_split {comparator comparator' name name' : String} {keys keys' : List String}
    (same : comparatorArguments comparator ++ [.string name, keysArgument keys] =
      comparatorArguments comparator' ++ [.string name', keysArgument keys']) :
    comparatorInFull comparator = comparatorInFull comparator' ∧ name = name' ∧
      listInFull keys = listInFull keys' := by
  obtain ⟨comparators, same⟩ :=
    comparator_split (Argument.apart_string name) (Argument.apart_string name') same
  obtain ⟨names, same⟩ := List.cons.inj same
  exact ⟨comparators, Argument.string.inj names, keysArgument_inj (List.cons.inj same).1⟩

theorem explicit_eq_of_toTest {condition other : Condition} (h : condition.toTest = other.toTest) :
    condition.explicit = other.explicit := by
  have kinds : condition.kind = other.kind := Vocabulary.word_injective (congrArg Test.name h)
  have same : condition.toArguments = other.toArguments := congrArg Test.arguments h
  cases condition with
  | header comparator m name keys =>
    cases other with
    | header comparator' m' name' keys' =>
      simp only [toArguments, List.cons_append, List.cons.injEq, Argument.tag.injEq] at same
      obtain ⟨words, rest⟩ := same
      obtain rfl : m = m' := Vocabulary.word_injective words
      obtain ⟨comparators, rfl, lists⟩ := named_split rest
      simp only [explicit, filled, comparators, lists]
    | _ => cases kinds
  | address comparator m part name keys =>
    cases other with
    | address comparator' m' part' name' keys' =>
      simp only [toArguments, List.cons_append, List.cons.injEq, Argument.tag.injEq] at same
      obtain ⟨words, parts, rest⟩ := same
      obtain rfl : m = m' := Vocabulary.word_injective words
      obtain rfl : part = part' := Vocabulary.word_injective parts
      obtain ⟨comparators, rfl, lists⟩ := named_split rest
      simp only [explicit, filled, comparators, lists]
    | _ => cases kinds
  | envelope comparator m part name keys =>
    cases other with
    | envelope comparator' m' part' name' keys' =>
      simp only [toArguments, List.cons_append, List.cons.injEq, Argument.tag.injEq] at same
      obtain ⟨words, parts, rest⟩ := same
      obtain rfl : m = m' := Vocabulary.word_injective words
      obtain rfl : part = part' := Vocabulary.word_injective parts
      obtain ⟨comparators, rfl, lists⟩ := named_split rest
      simp only [explicit, comparators, lists]
    | _ => cases kinds
  | size operator limit =>
    cases other with
    | size operator' limit' =>
      simp only [toArguments, orDefault, List.cons.injEq, Argument.tag.injEq,
        Argument.number.injEq] at same
      obtain ⟨operators, limits, -⟩ := same
      obtain rfl : operator = operator' := Vocabulary.word_injective operators
      simp only [explicit, limits]
    | _ => cases kinds
  | body comparator m transform keys =>
    cases other with
    | body comparator' m' transform' keys' =>
      simp only [toArguments, List.cons_append, List.cons.injEq, Argument.tag.injEq] at same
      obtain ⟨words, transforms, rest⟩ := same
      obtain rfl : m = m' := Vocabulary.word_injective words
      obtain rfl : transform = transform' := Vocabulary.word_injective transforms
      obtain ⟨comparators, rest⟩ :=
        comparator_split (Argument.apart_stringList _) (Argument.apart_stringList _) rest
      have lists := keysArgument_inj (List.cons.inj rest).1
      simp only [explicit, comparators, lists]
    | _ => cases kinds
  | present names =>
    cases other with
    | present names' =>
      have shown := congrArg (List.map Argument.strings?) same
      rw [present_arguments, present_arguments] at shown
      have lists := Option.some.inj (List.cons.inj shown).1
      simp only [explicit, filled, lists]
    | _ => cases kinds
  | always =>
    cases other with
    | always => rfl
    | _ => cases kinds
  | never =>
    cases other with
    | never => rfl
    | _ => cases kinds

end Condition

namespace Action

def flagsValue (flags : List String) : Option Argument :=
  if flags.isEmpty then none else some (.stringList flags)

theorem flagsArguments_eq (flags : List String) :
    (if flags.isEmpty then [] else [.tag ":flags", .stringList flags]) =
      optionArguments ":flags" (flagsValue flags) := by
  cases flags <;> rfl

theorem flagsValue_inj {flags flags' : List String} (h : flagsValue flags = flagsValue flags') :
    flags = flags' := by
  cases flags <;> cases flags' <;> simp_all [flagsValue]

section

open Argument

theorem fileinto_split {mailbox mailbox' : String} {create create' copy copy' : Bool}
    {flags flags' : List String}
    (same : (fileinto mailbox create copy flags).toArguments =
      (fileinto mailbox' create' copy' flags').toArguments) :
    (if mailbox = "" then "INBOX" else mailbox) =
        (if mailbox' = "" then "INBOX" else mailbox') ∧
      create = create' ∧ copy = copy' ∧ flags = flags' := by
  simp only [toArguments, flagsArguments_eq, List.append_assoc] at same
  have unflagged (copy : Bool) (mailbox : String) :
      Apart ":flags" (flagArguments ":copy" copy ++ [string mailbox]) :=
    (apart_string mailbox).flag (by decide) copy
  have uncreated (flags : Option Argument) (copy : Bool) (mailbox : String) : Apart ":create"
      (optionArguments ":flags" flags ++ (flagArguments ":copy" copy ++ [string mailbox])) :=
    ((apart_string mailbox).flag (by decide) copy).option (by decide) flags
  obtain ⟨created, same⟩ := flag_split (uncreated _ _ _) (uncreated _ _ _) same
  obtain ⟨marked, same⟩ := option_split (unflagged _ _) (unflagged _ _) same
  obtain ⟨copied, same⟩ := flag_split (apart_string _) (apart_string _) same
  exact ⟨string.inj (List.cons.inj same).1, created, copied, flagsValue_inj marked⟩

theorem deleteheader_split {name name' : String} {value value' : Option String}
    {index index' : Option UInt32} {last last' : Bool} {m m' : Option MatchType}
    {comparator comparator' : Option String}
    (same : (deleteheader name value index last m comparator).toArguments =
      (deleteheader name' value' index' last' m' comparator').toArguments) :
    name = name' ∧ nonempty? value = nonempty? value' ∧ index = index' ∧ last = last' ∧ m = m' ∧
      comparator.filter isExplicitComparator = comparator'.filter isExplicitComparator := by
  simp only [toArguments, List.append_assoc] at same
  have unmatched (comparator : Option Argument) (name : String) (rest : List Argument)
      (m : MatchType) :
      Apart m.word (optionArguments ":comparator" comparator ++ string name :: rest) :=
    (apart_string name).option (match_type_no_comparator m).symm comparator
  have unlast (m : Option MatchType) (comparator : Option Argument) (name : String)
      (rest : List Argument) : Apart ":last" ((m.map fun m => Argument.tag m.word).toList ++
        (optionArguments ":comparator" comparator ++ string name :: rest)) :=
    ((apart_string name).option (by decide) comparator).word (by rintro ⟨⟩ <;> decide) m
  have unindexed (last : Bool) (m : Option MatchType) (comparator : Option Argument) (name : String)
      (rest : List Argument) : Apart ":index" (flagArguments ":last" last ++
        ((m.map fun m => Argument.tag m.word).toList ++
          (optionArguments ":comparator" comparator ++ string name :: rest))) :=
    (((apart_string name).option (by decide) comparator).word (by rintro ⟨⟩ <;> decide) m).flag
      (by decide) last
  obtain ⟨indexed, same⟩ := option_split (unindexed _ _ _ _ _) (unindexed _ _ _ _ _) same
  obtain ⟨lasts, same⟩ := flag_split (unlast _ _ _ _) (unlast _ _ _ _) same
  obtain ⟨matched, same⟩ := word_split (unmatched _ _ _) (unmatched _ _ _) same
  obtain ⟨compared, same⟩ := option_split (apart_string _) (apart_string _) same
  obtain ⟨named, values⟩ := List.cons.inj same
  have values := congrArg List.head? values
  rw [Option.head?_toList, Option.head?_toList] at values
  exact ⟨string.inj named, string_options_eq values, number_options_eq indexed, lasts, matched,
    string_options_eq compared⟩

theorem vacation_split {days days' : Option UInt32} {subject subject' : Option String}
    {message message' : String}
    (same : (vacation days subject message).toArguments =
      (vacation days' subject' message').toArguments) :
    days.filter (· ≠ 0) = days'.filter (· ≠ 0) ∧ nonempty? subject = nonempty? subject' ∧
      message = message' := by
  simp only [toArguments, List.append_assoc] at same
  have undated (subject : Option Argument) (message : String) :
      Apart ":days" (optionArguments ":subject" subject ++ [string message]) :=
    (apart_string message).option (by decide) subject
  obtain ⟨days, same⟩ := option_split (undated _ _) (undated _ _) same
  obtain ⟨subjects, same⟩ := option_split (apart_string _) (apart_string _) same
  exact ⟨number_options_eq days, string_options_eq subjects, string.inj (List.cons.inj same).1⟩

end

theorem explicit_eq_of_toCommand {action other : Action} (h : action.toCommand = other.toCommand) :
    action.explicit = other.explicit := by
  have kinds : action.kind = other.kind := Vocabulary.word_injective (congrArg Command.name h)
  have same : action.toArguments = other.toArguments := congrArg Command.arguments h
  cases action with
  | keep =>
    cases other with
    | keep => rfl
    | _ => cases kinds
  | discard =>
    cases other with
    | discard => rfl
    | _ => cases kinds
  | stop =>
    cases other with
    | stop => rfl
    | _ => cases kinds
  | fileinto mailbox create copy flags =>
    cases other with
    | fileinto mailbox' create' copy' flags' =>
      obtain ⟨mailboxes, rfl, rfl, rfl⟩ := fileinto_split same
      simp only [explicit, filled, mailboxes]
    | _ => cases kinds
  | redirect address copy =>
    cases other with
    | redirect address' copy' =>
      obtain ⟨rfl, rest⟩ :=
        Argument.flag_split (Argument.apart_string _) (Argument.apart_string _) same
      obtain rfl := Argument.string.inj (List.cons.inj rest).1
      rfl
    | _ => cases kinds
  | reject reason =>
    cases other with
    | reject reason' =>
      obtain rfl := Argument.string.inj (List.cons.inj same).1
      rfl
    | _ => cases kinds
  | addheader name value last =>
    cases other with
    | addheader name' value' last' =>
      obtain ⟨rfl, rest⟩ :=
        Argument.flag_split (Argument.apart_string _) (Argument.apart_string _) same
      obtain ⟨rfl, rfl⟩ : name = name' ∧ value = value' := by simpa using rest
      rfl
    | _ => cases kinds
  | deleteheader name value index last m comparator =>
    cases other with
    | deleteheader name' value' index' last' m' comparator' =>
      obtain ⟨rfl, values, rfl, rfl, rfl, comparators⟩ := deleteheader_split same
      simp only [explicit_deleteheader, values, comparators]
    | _ => cases kinds
  | vacation days subject message =>
    cases other with
    | vacation days' subject' message' =>
      obtain ⟨days, subjects, rfl⟩ := vacation_split same
      simp only [explicit, filled_vacation, days, subjects]
    | _ => cases kinds

end Action

/-- Where one image tells another, lists with the same first images have the same second ones. -/
theorem map_determined {α β γ : Type} {f : α → β} {g : α → γ} {as bs : List α}
    (h : ∀ a ∈ as, ∀ b ∈ bs, f a = f b → g a = g b) (same : as.map f = bs.map f) :
    as.map g = bs.map g := by
  induction as generalizing bs with
  | nil =>
    obtain rfl := List.map_eq_nil_iff.mp same.symm
    rfl
  | cons a as ih =>
    obtain ⟨b, bs, rfl, first, rest⟩ := List.map_eq_cons_iff.mp same.symm
    rw [List.map_cons, List.map_cons, h a List.mem_cons_self b List.mem_cons_self first.symm]
    congr 1
    refine ih ?_ rest.symm
    intro a ha b hb
    exact h a (List.mem_cons_of_mem _ ha) b (List.mem_cons_of_mem _ hb)

namespace Policy

theorem toTest_cases (policy : Policy) :
    (∃ condition : Condition, policy.toTest = condition.toTest ∧
      policy.explicit.conditions = [condition.explicit] ∧ policy.explicit.combinator = .allof) ∨
    (policy.toTest = ⟨policy.combinator.word, [], policy.conditions.map Condition.toTest⟩ ∧
      policy.explicit.conditions = policy.conditions.map Condition.explicit ∧
      policy.explicit.combinator = policy.combinator) := by
  obtain ⟨active, combinator, conditions, actions⟩ := policy
  rcases conditions with _ | ⟨condition, _ | ⟨next, rest⟩⟩
  · exact .inl ⟨.always, rfl, rfl, rfl⟩
  · exact .inl ⟨condition, rfl, rfl, rfl⟩
  · have several : ¬ rest.length + 1 + 1 < 2 := by omega
    refine .inr ⟨rfl, rfl, ?_⟩
    simp [explicit, several]

theorem word_no_combinator (kind : ConditionKind) (combinator : Combinator) :
    kind.word ≠ combinator.word := by
  intro same
  have none := condition_no_combinator kind
  rw [same, named_combinator] at none
  cases none

theorem tests_determined {policy other : Policy} (h : policy.toTest = other.toTest) :
    policy.explicit.conditions = other.explicit.conditions ∧
      policy.explicit.combinator = other.explicit.combinator := by
  rcases policy.toTest_cases with ⟨condition, test, conditions, combinator⟩ |
    ⟨test, conditions, combinator⟩ <;>
    rcases other.toTest_cases with ⟨condition', test', conditions', combinator'⟩ |
      ⟨test', conditions', combinator'⟩ <;>
    rw [test, test'] at h
  · rw [conditions, conditions', Condition.explicit_eq_of_toTest h]
    exact ⟨rfl, combinator.trans combinator'.symm⟩
  · exact absurd (congrArg Test.name h) (word_no_combinator _ _)
  · exact absurd (congrArg Test.name h).symm (word_no_combinator _ _)
  · have combinators : policy.combinator = other.combinator :=
      Vocabulary.word_injective (congrArg Test.name h)
    have listed := map_determined (fun _ _ _ _ => Condition.explicit_eq_of_toTest)
      (congrArg Test.tests h)
    exact ⟨conditions.trans (listed.trans conditions'.symm),
      combinator.trans (combinators.trans combinator'.symm)⟩

theorem explicit_eq_of_toCommand {policy other : Policy} {keyword : String}
    (ha : policy.active = other.active)
    (h : policy.toCommand keyword = other.toCommand keyword) :
    policy.explicit = other.explicit := by
  have tests := (List.cons.inj (congrArg Command.tests h)).1
  have blocks := Option.some.inj (congrArg Command.block h)
  obtain ⟨conditions, combinators⟩ := tests_determined tests
  have actions := map_determined (fun _ _ _ _ => Action.explicit_eq_of_toCommand) blocks
  have parts : ∀ p : Policy, p.explicit =
      ⟨p.active, p.explicit.combinator, p.explicit.conditions, p.actions.map Action.explicit⟩ :=
    fun _ => rfl
  rw [parts policy, parts other, ha, conditions, combinators, actions]

theorem chain_unnamed (policies : List Policy) :
    (chain policies).map (fun command => { command with name := "if" }) =
      policies.map (toCommand "if") := by
  cases policies with
  | nil => rfl
  | cons first rest =>
    rw [chain, List.map_cons, List.map_map]
    rfl

end Policy

namespace RuleSet

def explicitPolicies (set : RuleSet) : List Policy :=
  set.activeRules.map fun rule => rule.toPolicy.explicit

theorem chain_explicitPolicies (set : RuleSet) :
    Policy.chain set.explicitPolicies = Policy.chain (set.activeRules.map Rule.toPolicy) := by
  rw [← Policy.chain_explicit (set.activeRules.map Rule.toPolicy), List.map_map]
  rfl

theorem explicitPolicies_determined {first second : RuleSet}
    (h : Policy.chain (first.activeRules.map Rule.toPolicy) =
      Policy.chain (second.activeRules.map Rule.toPolicy)) :
    first.explicitPolicies = second.explicitPolicies := by
  have unnamed := congrArg (List.map fun command => { command with name := "if" }) h
  rw [Policy.chain_unnamed, Policy.chain_unnamed, List.map_map, List.map_map] at unnamed
  refine map_determined ?_ unnamed
  intro rule hr other ho same
  have on : rule.active = true := (List.mem_filter.mp hr).2
  have on' : other.active = true := (List.mem_filter.mp ho).2
  exact Policy.explicit_eq_of_toCommand (on.trans on'.symm) same

theorem toScript_parts (set : RuleSet) :
    set.toScript.commands.filter (fun command => command.name = "require") = set.requireCommands ∧
      set.toScript.commands.filter (fun command => command.name ≠ "require") =
        Policy.chain (set.activeRules.map Rule.toPolicy) := by
  have required : ∀ command ∈ set.requireCommands, command.name = "require" := by
    intro command hc
    unfold requireCommands at hc
    split at hc
    · cases hc
    · rw [List.mem_singleton.mp hc]
  have branches : ∀ command ∈ Policy.chain (set.activeRules.map Rule.toPolicy),
      command.name ≠ "require" := by
    intro command hc
    rw [Policy.chain_eq_zipIdx] at hc
    obtain ⟨⟨policy, place⟩, -, rfl⟩ := List.mem_map.mp hc
    change (if place = 0 then "if" else "elsif") ≠ "require"
    split <;> decide
  rw [toScript, List.filter_append, List.filter_append]
  constructor
  · rw [List.filter_eq_self.mpr (by simpa using required),
      List.filter_eq_nil_iff.mpr (by simpa using branches), List.append_nil]
  · rw [List.filter_eq_nil_iff.mpr (by simpa using required),
      List.filter_eq_self.mpr (by simpa using branches), List.nil_append]

theorem requires_of_commands (set : RuleSet) :
    (set.requireCommands.flatMap fun command =>
      command.arguments.flatMap fun a => a.strings?.getD []) = set.requires := by
  unfold requireCommands
  split
  · rename_i none
    exact (List.isEmpty_iff.mp none).symm
  · simp [Argument.strings?]

theorem isEnabled_determined {first second : RuleSet} (h : first.requires = second.requires)
    (capability : Capability) :
    first.extensions.isEnabled capability = second.extensions.isEnabled capability := by
  have listed : ∀ set : RuleSet, set.extensions.isEnabled capability = true ↔
      capability.word ∈ set.requires.map requiredExtension := by
    intro set
    rw [mem_requires]
    constructor
    · intro on
      exact ⟨capability, on, rfl⟩
    · rintro ⟨other, on, same⟩
      obtain rfl : other = capability := Vocabulary.word_injective same
      exact on
  rw [Bool.eq_iff_iff, listed, listed, h]

theorem requires_congr {first second : RuleSet}
    (extensions : ∀ capability : Capability,
      first.extensions.isEnabled capability = second.extensions.isEnabled capability)
    (chains : Policy.chain (first.activeRules.map Rule.toPolicy) =
      Policy.chain (second.activeRules.map Rule.toPolicy)) : first.requires = second.requires := by
  have enabled : first.extensions.enabled = second.extensions.enabled := by
    unfold CapabilitySet.enabled
    congr 1
    exact funext extensions
  have used : ∀ set : RuleSet, set.usedComparators = ((Policy.chain
      (set.activeRules.map Rule.toPolicy)).flatMap Command.comparators).eraseDups := by
    intro set
    rw [Policy.named_by_chain, List.flatMap_map]
    rfl
  rw [requires, requires, enabled]
  congr 1
  funext capability
  cases capability with
  | comparator => rw [requirement, requirement, used, used, chains]
  | _ => rfl

/-- Two filters have the same script exactly where they switch on the same known extensions and
their active rules are the same once the defaults are filled in. -/
theorem generate_eq_iff (first second : RuleSet) (hf : first.Sized) (hs : second.Sized) :
    first.generate = second.generate ↔
      (∀ capability : Capability, first.extensions.isEnabled capability =
        second.extensions.isEnabled capability) ∧
      (first.activeRules.map fun rule => rule.toPolicy.explicit) =
        second.activeRules.map fun rule => rule.toPolicy.explicit := by
  constructor
  · intro same
    have scripts : first.toScript = second.toScript := by
      have parsed := parse_generate hf
      rw [same, parse_generate hs] at parsed
      exact (Except.ok.inj parsed).symm
    have commands := congrArg Script.commands scripts
    have required := congrArg (List.filter fun command => command.name = "require") commands
    have branches := congrArg (List.filter fun command => command.name ≠ "require") commands
    rw [first.toScript_parts.1, second.toScript_parts.1] at required
    rw [first.toScript_parts.2, second.toScript_parts.2] at branches
    have requires : first.requires = second.requires := by
      rw [← requires_of_commands, required, requires_of_commands]
    exact ⟨isEnabled_determined requires, explicitPolicies_determined branches⟩
  · rintro ⟨extensions, policies⟩
    have chains : Policy.chain (first.activeRules.map Rule.toPolicy) =
        Policy.chain (second.activeRules.map Rule.toPolicy) := by
      rw [← chain_explicitPolicies, ← chain_explicitPolicies]
      exact congrArg _ policies
    have scripts : first.toScript = second.toScript := by
      rw [toScript, toScript, requireCommands, requireCommands, requires_congr extensions chains,
        chains]
    rw [generate, generate, scripts]

/-- A filter that leaves open what it can. -/
def terse : RuleSet :=
  ⟨[⟨⟨true, .anyof, [], [.fileinto "" false false [], .vacation (some 0) (some "") "Away"]⟩,
        ⟨"id_1"⟩⟩,
      ⟨⟨true, .anyof, [.body "" .is .text []],
        [.deleteheader "A" (some "") (some 0) false none (some "i;ascii-casemap"),
          .vacation none (some "Until Monday") ""]⟩, ⟨"id_1"⟩⟩],
    .standard⟩

/-- The same filter with everything said, and with what no script shows. -/
def spelled : RuleSet :=
  ⟨[⟨⟨false, .anyof, [.never], [.discard]⟩, ⟨"id_1"⟩⟩,
      ⟨⟨true, .allof, [.always], [.fileinto "INBOX" false false [], .vacation none none "Away"]⟩,
        ⟨"id_2"⟩⟩,
      ⟨⟨true, .allof, [.body "i;ascii-casemap" .is .text [""]],
        [.deleteheader "A" none (some 0) false none none,
          .vacation none (some "Until Monday") ""]⟩, ⟨"id_3"⟩⟩],
    CapabilitySet.standard.setName "x-own" true⟩

/-- The first filter with other words in one subject. -/
def reworded : RuleSet :=
  ⟨[⟨⟨true, .anyof, [], [.fileinto "" false false [], .vacation (some 0) (some "") "Away"]⟩,
        ⟨"id_1"⟩⟩,
      ⟨⟨true, .anyof, [.body "" .is .text []],
        [.deleteheader "A" (some "") (some 0) false none (some "i;ascii-casemap"),
          .vacation none (some "Until Sunday") ""]⟩, ⟨"id_1"⟩⟩],
    .standard⟩

/-- The first filter with one extension more. -/
def extended : RuleSet :=
  { terse with extensions := terse.extensions.set .vacation true }

theorem terse_spelled_alike :
    terse.Sized ∧ spelled.Sized ∧ terse ≠ spelled ∧ terse.generate = spelled.generate ∧
      reworded.Sized ∧ terse.generate ≠ reworded.generate ∧
      extended.Sized ∧ terse.generate ≠ extended.generate := by
  have sized : terse.Sized ∧ spelled.Sized ∧ reworded.Sized ∧ extended.Sized := by decide
  obtain ⟨terse_sized, spelled_sized, reworded_sized, extended_sized⟩ := sized
  have extensions : ∀ capability : Capability,
      terse.extensions.isEnabled capability = spelled.extensions.isEnabled capability := by
    intro capability
    have known : capability.word ≠ "x-own" := by cases capability <;> decide
    exact ((CapabilitySet.isEnabledName_setName ..).trans (if_neg known)).symm
  have policies : (terse.activeRules.map fun rule => rule.toPolicy.explicit) =
      spelled.activeRules.map fun rule => rule.toPolicy.explicit := by
    decide
  have alike := (generate_eq_iff terse spelled terse_sized spelled_sized).mpr ⟨extensions, policies⟩
  refine ⟨terse_sized, spelled_sized, by decide, alike, reworded_sized, ?_, extended_sized, ?_⟩
  · intro same
    obtain ⟨-, subjects⟩ := (generate_eq_iff terse reworded terse_sized reworded_sized).mp same
    exact absurd subjects (by decide)
  · intro same
    obtain ⟨enabled, -⟩ := (generate_eq_iff terse extended terse_sized extended_sized).mp same
    exact absurd (enabled .vacation) (by decide)

end RuleSet

end SieveRules
