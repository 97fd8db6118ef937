import SieveRules.Text
/-!
The words of the filter language: match types, address parts, kinds of tests and actions, and the
extensions a script can require. Each value has one word, and looking a word up ignores its case.
-/

namespace SieveRules

/-- A closed set of values, each with a word of its own. -/
class Vocabulary (α : Type) where
  all : List α
  word : α → String
  complete : ∀ a, a ∈ all
  distinct : all.Pairwise (word · ≠ word ·)

namespace Vocabulary

variable {α : Type} [Vocabulary α]

def exactly? (s : String) : Option α :=
  all.find? fun a => word a = s

/-- The value whose word this is in some case. -/
def named? (s : String) : Option α :=
  exactly? (Text.lowerCase s)

theorem word_of_exactly? {s : String} {a : α} (h : exactly? s = some a) : word a = s := by
  simpa using List.find?_some h

theorem word_injective {a b : α} (h : word a = word b) : a = b := by
  have aux : ∀ {l : List α}, l.Pairwise (word · ≠ word ·) → a ∈ l → b ∈ l → a = b := by
    intro l hl ha hb
    induction hl with
    | nil => cases ha
    | cons hx _ ih =>
      rcases List.mem_cons.1 ha with rfl | ha' <;> rcases List.mem_cons.1 hb with rfl | hb'
      · rfl
      · exact absurd h (hx _ hb')
      · exact absurd h.symm (hx _ ha')
      · exact ih ha' hb'
  exact aux distinct (complete a) (complete b)

@[simp] theorem exactly?_word (a : α) : exactly? (word a) = some a := by
  have found : (all.find? fun b : α => decide (word b = word a)).isSome := by
    rw [List.find?_isSome]
    exact ⟨a, complete a, by simp⟩
  obtain ⟨b, hb⟩ := Option.isSome_iff_exists.1 found
  have : word b = word a := by simpa using List.find?_some hb
  exact hb.trans (congrArg some (word_injective this))

theorem exactly?_eq_some_iff {s : String} {a : α} : exactly? s = some a ↔ word a = s :=
  ⟨word_of_exactly?, fun h => h ▸ exactly?_word a⟩

end Vocabulary

inductive MatchType where
  | is
  | contains
  | pattern
  deriving DecidableEq, Repr, Inhabited

def MatchType.word : MatchType → String
  | is => ":is"
  | contains => ":contains"
  | pattern => ":matches"

instance : Vocabulary MatchType where
  all := [.is, .contains, .pattern]
  word := MatchType.word
  complete a := by cases a <;> decide
  distinct := by decide

inductive AddressPart where
  | all
  | localpart
  | domain
  deriving DecidableEq, Repr, Inhabited

def AddressPart.word : AddressPart → String
  | all => ":all"
  | localpart => ":localpart"
  | domain => ":domain"

instance : Vocabulary AddressPart where
  all := [.all, .localpart, .domain]
  word := AddressPart.word
  complete a := by cases a <;> decide
  distinct := by decide

inductive SizeOperator where
  | larger
  | smaller
  deriving DecidableEq, Repr, Inhabited

def SizeOperator.word : SizeOperator → String
  | larger => ":over"
  | smaller => ":under"

instance : Vocabulary SizeOperator where
  all := [.larger, .smaller]
  word := SizeOperator.word
  complete a := by cases a <;> decide
  distinct := by decide

/-- How a body is prepared for comparison (RFC 5173). -/
inductive BodyTransform where
  | text
  | raw
  | content
  deriving DecidableEq, Repr, Inhabited

def BodyTransform.word : BodyTransform → String
  | text => ":text"
  | raw => ":raw"
  | content => ":content"

instance : Vocabulary BodyTransform where
  all := [.text, .raw, .content]
  word := BodyTransform.word
  complete a := by cases a <;> decide
  distinct := by decide

inductive Combinator where
  | anyof
  | allof
  deriving DecidableEq, Repr, Inhabited

namespace Combinator

def word : Combinator → String
  | anyof => "anyof"
  | allof => "allof"

def toggled : Combinator → Combinator
  | anyof => allof
  | allof => anyof

@[simp] theorem toggled_toggled (c : Combinator) : c.toggled.toggled = c := by
  cases c <;> rfl

end Combinator

instance : Vocabulary Combinator where
  all := [.anyof, .allof]
  word := Combinator.word
  complete a := by cases a <;> decide
  distinct := by decide

/-- Extensions of the language, in the order in which a script requires them. -/
inductive Capability where
  | fileinto
  | reject
  | vacation
  | envelope
  | vars
  | body
  | relational
  | comparator
  | subaddress
  | copy
  | imap4flags
  | date
  | index
  | editheader
  | enotify
  | environment
  | mime
  | convert
  | inclusion
  | fcc
  deriving DecidableEq, Repr

namespace Capability

def all : List Capability :=
  [fileinto, reject, vacation, envelope, vars, body, relational, comparator, subaddress, copy,
    imap4flags, date, index, editheader, enotify, environment, mime, convert, inclusion, fcc]

def word : Capability → String
  | fileinto => "fileinto"
  | reject => "reject"
  | vacation => "vacation"
  | envelope => "envelope"
  | vars => "variables"
  | body => "body"
  | relational => "relational"
  | comparator => "comparator"
  | subaddress => "subaddress"
  | copy => "copy"
  | imap4flags => "imap4flags"
  | date => "date"
  | index => "index"
  | editheader => "editheader"
  | enotify => "enotify"
  | environment => "environment"
  | mime => "mime"
  | convert => "convert"
  | inclusion => "include"
  | fcc => "fcc"

end Capability

instance : Vocabulary Capability where
  all := Capability.all
  word := Capability.word
  complete a := by cases a <;> decide
  distinct := by decide

inductive ConditionKind where
  | header
  | address
  | envelope
  | size
  | body
  | present
  | always
  | never
  deriving DecidableEq, Repr

namespace ConditionKind

def word : ConditionKind → String
  | header => "header"
  | address => "address"
  | envelope => "envelope"
  | size => "size"
  | body => "body"
  | present => "exists"
  | always => "true"
  | never => "false"

def capability? : ConditionKind → Option Capability
  | envelope => some .envelope
  | body => some .body
  | _ => none

end ConditionKind

instance : Vocabulary ConditionKind where
  all := [.header, .address, .envelope, .size, .body, .present, .always, .never]
  word := ConditionKind.word
  complete a := by cases a <;> decide
  distinct := by decide

inductive ActionKind where
  | keep
  | fileinto
  | redirect
  | discard
  | reject
  | addheader
  | deleteheader
  | stop
  | vacation
  deriving DecidableEq, Repr

namespace ActionKind

def word : ActionKind → String
  | keep => "keep"
  | fileinto => "fileinto"
  | redirect => "redirect"
  | discard => "discard"
  | reject => "reject"
  | addheader => "addheader"
  | deleteheader => "deleteheader"
  | stop => "stop"
  | vacation => "vacation"

def isBare : ActionKind → Bool
  | keep | discard | stop => true
  | _ => false

/-- The extension that a script has to require for the action, if any. Changes of headers belong to
`editheader`, which is not checked. -/
def capability? : ActionKind → Option Capability
  | fileinto => some .fileinto
  | reject => some .reject
  | vacation => some .vacation
  | _ => none

end ActionKind

instance : Vocabulary ActionKind where
  all := [.keep, .fileinto, .redirect, .discard, .reject, .addheader, .deleteheader, .stop,
    .vacation]
  word := ActionKind.word
  complete a := by cases a <;> decide
  distinct := by decide

end SieveRules
