import SieveRules.Binary64
import SieveRules.Dictionary
/-!
JSON values as they are written: the members of an object stand in their order, repeated ones
included, and numbers keep their digits. `settle` gives the value that a reader makes of one which
knows no order and no repetition.
-/

namespace SieveRules

structure JsonNumber where
  negative : Bool
  whole : Nat
  fraction : List Nat
  exponent : Option Int
  deriving DecidableEq, Repr

namespace JsonNumber

def ofNat (n : Nat) : JsonNumber := ⟨false, n, [], none⟩

def nat? : JsonNumber → Option Nat
  | ⟨false, whole, [], none⟩ => some whole
  | _ => none

def leading (n : Nat) : Nat × Nat :=
  if n < UInt64.size then (n, 0)
  else
    let (significand, dropped) := leading (n / 10)
    (significand, dropped + 1)
termination_by n
decreasing_by simp only [UInt64.size] at *; omega

/-- Digits behind the point, as long as the significand fits in a 64-bit word. -/
def extend (significand : Nat) (k : Int) : List Nat → Nat × Int
  | [] => (significand, k)
  | d :: rest =>
    let longer := significand * 10 + d
    if longer < UInt64.size then extend longer (k - 1) rest else (significand, k)

def approximate (n : JsonNumber) : Option Binary64 :=
  let (significand, dropped) := leading n.whole
  let (significand, k) := extend significand dropped n.fraction
  Binary64.ofDecimal significand (k + n.exponent.getD 0)

/-- The text of the number once it is read: an integer where it is one and fits in 64 bits. -/
def text (n : JsonNumber) : String :=
  let sign := if n.negative then "-" else ""
  let isInteger := n.fraction.isEmpty && n.exponent.isNone
  let fits := if n.negative then 0 < n.whole && n.whole ≤ UInt64.size / 2 else n.whole < UInt64.size
  if isInteger && fits then sign ++ toString n.whole
  else sign ++ (n.approximate.getD .zero).text

end JsonNumber

inductive Json where
  | null
  | bool (value : Bool)
  | number (value : JsonNumber)
  /-- No text stands for a string whose escapes leave half of a surrogate pair. -/
  | string (value : Option String)
  | array (items : List Json)
  | object (members : List (Option String × Json))
  deriving Repr

namespace Json

def ofString (s : String) : Json := string (some s)

def ofNat (n : Nat) : Json := number (.ofNat n)

def ofStrings (items : List String) : Json := array (items.map ofString)

def ofMembers (members : List (String × Json)) : Json :=
  object (members.map fun (name, value) => (some name, value))

/-- The deepest nesting of arrays and objects that is read. -/
def maxDepth : Nat := 127

mutual

def depth : Json → Nat
  | array items => depthItems items + 1
  | object members => depthMembers members + 1
  | _ => 0

def depthItems : List Json → Nat
  | [] => 0
  | item :: rest => max item.depth (depthItems rest)

def depthMembers : List (Option String × Json) → Nat
  | [] => 0
  | (_, value) :: rest => max value.depth (depthMembers rest)

end

mutual

/-- Every string is a text, and every number is within the binary64 format. -/
def isPlain : Json → Bool
  | number value => value.approximate.isSome
  | string value => value.isSome
  | array items => arePlainItems items
  | object members => arePlainMembers members
  | _ => true

def arePlainItems : List Json → Bool
  | [] => true
  | item :: rest => item.isPlain && arePlainItems rest

def arePlainMembers : List (Option String × Json) → Bool
  | [] => true
  | (name, value) :: rest => name.isSome && value.isPlain && arePlainMembers rest

end

/-- The value can be read in whole where it stands inside `level` arrays and objects. -/
def isReadable (level : Nat) (j : Json) : Bool :=
  j.isPlain && decide (level + j.depth ≤ maxDepth)

mutual

/-- The value with the members of objects in the order of their names; of repeated ones the last
counts. -/
def settle : Json → Json
  | array items => array (settleItems items)
  | object members => ofMembers (Dictionary.ofList (settleMembers members)).entries
  | j => j

def settleItems : List Json → List Json
  | [] => []
  | item :: rest => item.settle :: settleItems rest

def settleMembers : List (Option String × Json) → List (String × Json)
  | [] => []
  | (name, value) :: rest => (name.getD "", value.settle) :: settleMembers rest

end

end Json

end SieveRules
