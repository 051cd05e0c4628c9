/-!
# Binary floating-point numbers as exact fractions

A finite number in the binary64 format is a sign, a natural mantissa and a power of two. This module
takes a number apart into these pieces and rounds an exact fraction to the nearest number, with ties
to the even mantissa. Everything else about decimal text and about mixed arithmetic is built on the
two directions.
-/

namespace Clausal.Decimal

-- Powers are the built-in ones, also where an algebraic structure on the numbers has others.
attribute [local instance (high)] instPowNat

/-- A finite number in pieces: its absolute value is `mantissa * 2 ^ exponent`. -/
structure Parts where
  negative : Bool
  mantissa : Nat
  exponent : Int
deriving DecidableEq

/-- A binary64 number seen from outside: not a number, an infinity, or finite. -/
inductive View where
  | nan
  | infinite (negative : Bool)
  | finite (parts : Parts)
deriving DecidableEq

/-- Takes a number apart by the fields of its bit pattern: one sign bit, eleven exponent bits and
fifty-two bits of fraction. -/
def view (x : Float) : View :=
  let bits : Nat := x.toBits.toNat
  let negative := decide (2 ^ (63 : Nat) ≤ bits)
  let biased : Nat := bits / 2 ^ (52 : Nat) % 2 ^ (11 : Nat)
  let fraction : Nat := bits % 2 ^ (52 : Nat)
  if biased = 2047 then
    if fraction = 0 then .infinite negative else .nan
  else if biased = 0 then .finite ⟨negative, fraction, -1074⟩
  else .finite ⟨negative, fraction + 2 ^ (52 : Nat), (biased : Int) - 1075⟩

/-- The bit pattern with the given sign and magnitude. -/
def ofMagnitude (negative : Bool) (magnitude : Nat) : Float :=
  Float.ofBits (UInt64.ofNat (if negative then 2 ^ (63 : Nat) + magnitude else magnitude))

/-- The magnitude bits of the infinities: an exponent field of all ones and no fraction. -/
def infiniteMagnitude : Nat := 2047 * 2 ^ (52 : Nat)

def infinity (negative : Bool) : Float :=
  ofMagnitude negative infiniteMagnitude

/-- The fraction `num / den` times `2 ^ (-e)`, as a numerator and a denominator. -/
def scaleDown (num den : Nat) : Int → Nat × Nat
  | .ofNat k => (num, den * 2 ^ k)
  | .negSucc k => (num * 2 ^ (k + 1), den)

/-- A quotient rounded to the nearest natural number, a tie to the even one. -/
def roundDiv (num den : Nat) : Nat :=
  let q := num / den
  let r := num % den
  if 2 * r > den || (2 * r == den && q % 2 == 1) then q + 1 else q

/-- The exponent of the last mantissa bit of the numbers around `num / den`: fifty-three bits below
the leading one, and never below that of the smallest numbers. -/
def lastBit (num den : Nat) : Int :=
  let top : Int := (num.log2 : Int) - den.log2
  let e := max (top - 53) (-1074)
  let (n, d) := scaleDown num den e
  if 2 ^ (53 : Nat) * d ≤ n then e + 1 else e

/-- The magnitude bits of the number nearest to the positive fraction `num / den`, or of infinity
where that is too large. The exponent field counts from the smallest numbers, so the leading bit of
a mantissa adds one to it, and a mantissa that rounds up to `2 ^ 53` adds two. -/
def nearestMagnitude (num den : Nat) : Nat :=
  if num = 0 then 0 else
    let e := lastBit num den
    let (n, d) := scaleDown num den e
    let q := roundDiv n d
    min ((e + 1074).toNat * 2 ^ (52 : Nat) + q) infiniteMagnitude

/-- The number nearest to a fraction of the given sign; infinite if the fraction is too large. -/
def nearest (negative : Bool) (num den : Nat) : Float :=
  ofMagnitude negative (nearestMagnitude num den)

/-- The number nearest to a fraction of the given sign, unless the fraction is too large. -/
def nearest? (negative : Bool) (num den : Nat) : Option Float :=
  let magnitude := nearestMagnitude num den
  if magnitude < infiniteMagnitude then some (ofMagnitude negative magnitude) else none

/-- The number nearest to an integer, unless the integer is too large. -/
def ofInt? (n : Int) : Option Float :=
  nearest? (decide (n < 0)) n.natAbs 1

/-- The number nearest to a quotient of integers, unless it is too large. A zero quotient takes the
sign of the division. -/
def ofQuotient? (a b : Int) : Option Float :=
  nearest? (decide (a < 0) != decide (b < 0)) a.natAbs b.natAbs

/-- The absolute value of the pieces as an exact fraction. -/
def Parts.fraction (p : Parts) : Nat × Nat :=
  match p.exponent with
  | .ofNat k => (p.mantissa * 2 ^ k, 1)
  | .negSucc k => (p.mantissa, 2 ^ (k + 1))

/-- The sign applied to a natural number. -/
def Parts.signed (p : Parts) (n : Nat) : Int :=
  if p.negative then -(n : Int) else n

/-- The integer part, with the fraction dropped toward zero. -/
def Parts.truncate (p : Parts) : Int :=
  p.signed (p.fraction.1 / p.fraction.2)

/-- The nearest integer; a half goes to the even neighbour. -/
def Parts.nearestInt (p : Parts) : Int :=
  p.signed (roundDiv p.fraction.1 p.fraction.2)

/-- The exact value, when it is an integer. -/
def Parts.whole? (p : Parts) : Option Int :=
  if p.fraction.1 % p.fraction.2 = 0 then some p.truncate else none

/-- The exact value of a finite whole number. -/
def whole? (x : Float) : Option Int :=
  match view x with
  | .finite p => p.whole?
  | _ => none

/-- The integer nearest to a finite number. -/
def nearestWhole? (x : Float) : Option Int :=
  match view x with
  | .finite p => some p.nearestInt
  | _ => none

/-- How an integer compares with a number; nothing compares with what is not a number. -/
def compareInt? (n : Int) (x : Float) : Option Ordering :=
  match view x with
  | .nan => none
  | .infinite negative => some (if negative then .gt else .lt)
  | .finite p => some (compare (n * p.fraction.2) (p.signed p.fraction.1))

end Clausal.Decimal
