import SieveRules.Vocabulary
/-!
The tests a rule can hold, each with the fields its kind takes.
-/

namespace SieveRules

def defaultComparator : String := "i;ascii-casemap"

/-- The comparator has to be named for the test to use it. -/
def isExplicitComparator (name : String) : Bool :=
  name ≠ "" && name ≠ defaultComparator

inductive Condition where
  | header (comparator : String) (matchType : MatchType) (header : String) (keys : List String)
  | address (comparator : String) (matchType : MatchType) (part : AddressPart) (header : String)
      (keys : List String)
  | envelope (comparator : String) (matchType : MatchType) (part : AddressPart) (header : String)
      (keys : List String)
  | size (operator : SizeOperator) (limit : String)
  | body (comparator : String) (matchType : MatchType) (transform : BodyTransform)
      (keys : List String)
  | present (headers : List String)
  | always
  | never
  deriving DecidableEq, Repr

/-- Digits with an optional scale. -/
def isSizeLiteral (s : String) : Bool :=
  let digits := s.toList.takeWhile Text.isDigit
  !digits.isEmpty &&
    match s.toList.dropWhile Text.isDigit with
    | [] => true
    | [c] => Text.isScale c
    | _ => false

structure InvalidSize where
  limit : String
  deriving DecidableEq, Repr

def InvalidSize.message (e : InvalidSize) : String :=
  "Invalid size literal '" ++ e.limit ++ "': expected digits with an optional K, M or G suffix"

namespace Condition

def size? (operator : SizeOperator) (limit : String) : Except InvalidSize Condition :=
  if isSizeLiteral limit then .ok (size operator limit) else .error ⟨limit⟩

def initial : Condition :=
  header defaultComparator .is "Subject" [""]

def kind : Condition → ConditionKind
  | header .. => .header
  | address .. => .address
  | envelope .. => .envelope
  | size .. => .size
  | body .. => .body
  | present .. => .present
  | always => .always
  | never => .never

def comparator? : Condition → Option String
  | header comparator .. | address comparator .. | envelope comparator .. | body comparator .. =>
    some comparator
  | _ => none

end Condition

end SieveRules
