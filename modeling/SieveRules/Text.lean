/-!
Characters and text: the classes that scripts are written with, lower case for names that are
compared with ASCII words, blank text, and the size of text in UTF-8.
-/

namespace SieveRules

namespace Text

/-- The blanks between the tokens of a script. Other spaces of Unicode do not separate tokens. -/
def isBlank (c : Char) : Bool :=
  c = ' ' || c = '\t' || c = '\n' || c = '\r' || c = '\x0c'

def isDigit (c : Char) : Bool :=
  decide ('0' ≤ c) && decide (c ≤ '9')

def isWordStart (c : Char) : Bool :=
  (decide ('a' ≤ c) && decide (c ≤ 'z')) || (decide ('A' ≤ c) && decide (c ≤ 'Z')) || c = '_'

def isWordPart (c : Char) : Bool :=
  isWordStart c || isDigit c

def isScale (c : Char) : Bool :=
  c = 'K' || c = 'k' || c = 'M' || c = 'm' || c = 'G' || c = 'g'

/-- Lower case as far as it ends in ASCII: the capitals, and the Kelvin sign, whose lower case
is the letter k. No other character has an ASCII letter for its whole lower case. -/
def lower (c : Char) : Char :=
  if c = '\u212a' then 'k' else c.toLower

def lowerCase (s : String) : String :=
  String.ofList (s.toList.map lower)

/-- The White_Space property of Unicode. -/
def isWhiteSpace (c : Char) : Bool :=
  let n := c.toNat
  (9 ≤ n && n ≤ 13) || n = 0x20 || n = 0x85 || n = 0xa0 || n = 0x1680 ||
    (0x2000 ≤ n && n ≤ 0x200a) || n = 0x2028 || n = 0x2029 || n = 0x202f || n = 0x205f ||
    n = 0x3000

def isVacant (s : String) : Bool :=
  s.toList.all isWhiteSpace

def decimal (digits : List Char) : Nat :=
  digits.foldl (fun n c => n * 10 + (c.toNat - 48)) 0

def size : List Char → Nat
  | [] => 0
  | c :: cs => c.utf8Size + size cs

@[simp] theorem size_nil : size [] = 0 := rfl

@[simp] theorem size_cons (c : Char) (cs : List Char) : size (c :: cs) = c.utf8Size + size cs := rfl

@[simp] theorem size_append (cs ds : List Char) : size (cs ++ ds) = size cs + size ds := by
  induction cs with
  | nil => simp
  | cons c cs ih => simp [ih, Nat.add_assoc]

end Text

end SieveRules
