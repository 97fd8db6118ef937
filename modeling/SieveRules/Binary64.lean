/-!
Numbers in the binary64 format, without sign: rounding to them, and their shortest
decimal text. All arithmetic is exact, on natural numbers and powers.
-/

namespace SieveRules

/-- The number `significand * 2 ^ exponent`. -/
structure Binary64 where
  significand : Nat
  exponent : Int
  deriving DecidableEq, Repr

namespace Binary64

def power (n base : Nat) (e : Int) : Nat × Nat :=
  if 0 ≤ e then (n * base.pow e.toNat, 1) else (n, base.pow (-e).toNat)

def zero : Binary64 := ⟨0, -1074⟩

/-- A quotient rounded to the nearest integer. A half goes to the even neighbour. -/
def roundDiv (num den : Nat) : Nat :=
  let q := num / den
  let r := num % den
  if den < 2 * r || (den = 2 * r && q % 2 = 1) then q + 1 else q

def floorLog2 (num den : Nat) : Int :=
  let guess : Int := (num.log2 : Int) - den.log2
  let (n, d) := power 1 2 guess
  if den * n ≤ num * d then guess else guess - 1

def round (num den : Nat) : Option Binary64 :=
  if num = 0 then some zero
  else
    let exponent := max (floorLog2 num den - 52) (-1074)
    let (n, d) := power 1 2 exponent
    let significand := roundDiv (num * d) (den * n)
    let rounded : Binary64 :=
      if significand = Nat.pow 2 53 then ⟨Nat.pow 2 52, exponent + 1⟩ else ⟨significand, exponent⟩
    if 971 < rounded.exponent then none else some rounded

/-- The product of a number and a power of ten, where the power is rounded first. -/
def timesTen (x : Binary64) (k : Nat) : Option Binary64 :=
  match round (Nat.pow 10 k) 1 with
  | none => none
  | some p =>
    let (n, d) := power (x.significand * p.significand) 2 (x.exponent + p.exponent)
    round n d

def overTen (x : Binary64) (k : Nat) : Option Binary64 :=
  match round (Nat.pow 10 k) 1 with
  | none => none
  | some p =>
    let (n, d) := power x.significand 2 (x.exponent - p.exponent)
    round n (d * p.significand)

def overTenSteps (x : Binary64) : Nat → Option Binary64
  | 0 => some x
  | steps + 1 => (x.overTen 308).bind fun y => y.overTenSteps steps

/-- A number scaled by a power of ten. Divisors beyond `10 ^ 308` are taken in steps, of which three
take any number to zero; factors beyond it leave the format. -/
def scaleTen (x : Binary64) (k : Int) : Option Binary64 :=
  let size := k.natAbs
  if 0 ≤ k then
    if x.significand = 0 then some x
    else if size ≤ 308 then x.timesTen size
    else none
  else
    let steps := (size - 1) / 308
    (x.overTenSteps (min steps 3)).bind fun y => y.overTen (size - 308 * steps)

/-- The number of a decimal `significand * 10 ^ k`, rounded on conversion and again on scaling. -/
def ofDecimal (significand : Nat) (k : Int) : Option Binary64 :=
  match round significand 1 with
  | none => none
  | some x => x.scaleTen k

/-- Whether a decimal reads back as the number: it lies between the midpoints to its neighbours,
which themselves belong to the number with the even significand. -/
def reads (x : Binary64) (digits : Nat) (k : Int) : Bool :=
  let below := if x.significand = Nat.pow 2 52 && decide (-1074 < x.exponent) then 1 else 2
  let (un, ud) := power 1 2 (x.exponent - 2)
  let (tn, td) := power digits 10 k
  let value := tn * ud
  let low := (4 * x.significand - below) * un * td
  let high := (4 * x.significand + 2) * un * td
  if x.significand % 2 = 0 then decide (low ≤ value) && decide (value ≤ high)
  else decide (low < value) && decide (value < high)

def magnitude (x : Binary64) : Int :=
  let (n, d) := power x.significand 2 x.exponent
  let guess : Int := floorLog2 n d * 30103 / 100000 - 1
  let fits (p : Int) : Bool :=
    let (tn, td) := power 1 10 p
    decide (n * td < tn * d)
  ([guess, guess + 1, guess + 2].find? fits).getD (guess + 3)

def decimal? (x : Binary64) (count : Nat) : Option (Nat × Int) :=
  let k := x.magnitude - count
  let (n, d) := power x.significand 2 x.exponent
  let (tn, td) := power 1 10 k
  let num := n * td
  let den := d * tn
  let nearest := roundDiv num den
  let floor := num / den
  if x.reads nearest k then some (nearest, k)
  else if x.reads floor k then some (floor, k)
  else if x.reads (floor + 1) k then some (floor + 1, k)
  else none

def shortest (x : Binary64) : Nat × Int :=
  let (n, k) := ((List.range 17).findSome? fun i => x.decimal? (i + 1)).getD (0, 0)
  -- Rounding up may carry past the first digit.
  if n = 10 then (1, k + 1) else (n, k)

/-- The text of a number: its shortest digits, positional from `10 ^ -5` up to `10 ^ 16`, and beyond
with an exponent that shows its sign. -/
def text (x : Binary64) : String :=
  if x.significand = 0 then "0.0"
  else
    let (n, k) := x.shortest
    let digits := Nat.toDigits 10 n
    let count := digits.length
    let point := count + k
    if 0 ≤ k && point ≤ 16 then
      String.ofList (digits ++ List.replicate k.toNat '0') ++ ".0"
    else if 0 < point && point ≤ 16 then
      String.ofList (digits.take point.toNat) ++ "." ++ String.ofList (digits.drop point.toNat)
    else if -5 < point && point ≤ 0 then
      "0." ++ String.ofList (List.replicate (-point).toNat '0' ++ digits)
    else
      let power := (if 0 < point then "e+" else "e") ++ toString (point - 1)
      if count = 1 then String.ofList digits ++ power
      else String.ofList (digits.take 1) ++ "." ++ String.ofList (digits.drop 1) ++ power

end Binary64

end SieveRules
