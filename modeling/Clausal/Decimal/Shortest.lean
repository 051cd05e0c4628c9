import Clausal.Decimal.Binary64

/-!
# The shortest decimal that reads back

A finite number is written with the fewest significant digits whose decimal value rounds to it
again. For each number of digits the two neighbours of the exact value on the decimal grid are
tried; the first grid with a neighbour that reads back wins, and of two such neighbours the nearer
one, or the even one if both are equally near. Seventeen digits always suffice.
-/

namespace Clausal.Decimal

-- Powers are the built-in ones, also where an algebraic structure on the numbers has others.
attribute [local instance (high)] instPowNat

/-- The decimal `coefficient * 10 ^ exponent`. -/
structure Scientific where
  coefficient : Nat
  exponent : Int
deriving DecidableEq

def Scientific.fraction (s : Scientific) : Nat × Nat :=
  match s.exponent with
  | .ofNat k => (s.coefficient * 10 ^ k, 1)
  | .negSucc k => (s.coefficient, 10 ^ (k + 1))

def digitCount (n : Nat) : Nat :=
  (Nat.toDigits 10 n).length

/-- The exponent of the leading decimal digit of the positive fraction `num / den`, for fractions
that are at least `10 ^ (-400)`. -/
def leadingExponent (num den : Nat) : Int :=
  (digitCount (num * 10 ^ (400 : Nat) / den) : Int) - 401

/-- The fraction `num / den` in units of `10 ^ k`, as a numerator and a denominator. -/
def inUnits (num den : Nat) : Int → Nat × Nat
  | .ofNat k => (num, den * 10 ^ k)
  | .negSucc k => (num * 10 ^ (k + 1), den)

/-- Whether the decimal rounds to the number with the given magnitude bits. -/
def Scientific.readsAs (s : Scientific) (magnitude : Nat) : Bool :=
  nearestMagnitude s.fraction.1 s.fraction.2 == magnitude

/-- The neighbours of `num / den` on the grid of multiples of `10 ^ k`, the nearer one first, and of
two equally near ones the one with the even last digit. -/
def neighbours (num den : Nat) (k : Int) : List Scientific :=
  let (n, d) := inUnits num den k
  let low := n / d
  if roundDiv n d = low then [⟨low, k⟩, ⟨low + 1, k⟩] else [⟨low + 1, k⟩, ⟨low, k⟩]

/-- The decimal on the grid of multiples of `10 ^ k` that is next to `num / den` and rounds to the
number with the given magnitude bits. -/
def reading? (num den magnitude : Nat) (k : Int) : Option Scientific :=
  (neighbours num den k).find? (·.readsAs magnitude)

/-- The grids on which `num / den` has from one to seventeen significant digits. -/
def grids (num den : Nat) : List Int :=
  (List.range 17).map fun (i : Nat) => leadingExponent num den - (i : Int)

/-- Decimal places that are enough for the exact value of any finite number. -/
@[irreducible] def exactPlaces : Nat := 1100

/-- The fraction `num / den` as a decimal with places enough for any finite number. -/
def inPlaces (num den : Nat) : Scientific :=
  ⟨num * 10 ^ exactPlaces / den, -(exactPlaces : Int)⟩

/-- The shortest decimal that rounds to the number whose exact value is the positive fraction
`num / den`. -/
def shortest (num den : Nat) : Scientific :=
  ((grids num den).findSome? (reading? num den (nearestMagnitude num den))).getD (inPlaces num den)

end Clausal.Decimal
