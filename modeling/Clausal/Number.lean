import Clausal.Decimal.Layout

/-!
# Numbers of the arithmetic

Arithmetic works on integers of any size and on floating-point numbers. Integers stay exact under
addition, subtraction and multiplication; a quotient is always rounded to the nearest floating-point
number, and an operation with one floating-point operand rounds the other one first.
-/

namespace Clausal

-- Powers are the built-in ones, also where an algebraic structure on the numbers has others.
attribute [local instance (high)] instPowNat

inductive Number where
  | int (value : Int)
  | float (value : Float)
deriving DecidableEq

namespace Number

/-- The longest integers that have a written form: this many decimal digits. -/
def digitLimit : Nat := 4300

/-- The least magnitude without a written form. -/
def unwritable : Nat := 10 ^ digitLimit

def hasText (n : Int) : Bool :=
  decide (n.natAbs < unwritable)

/-- The decimal digits of an integer, with a sign in front if it is negative. -/
def intText (n : Int) : List Char :=
  Decimal.withSign (decide (n < 0)) (Nat.toDigits 10 n.natAbs)

/-- The nearest floating-point number, unless an integer is too large. -/
def toFloat? : Number → Option Float
  | .int n => Decimal.ofInt? n
  | .float x => some x

/-- Whether a number equals zero; both signed zeros do. -/
def isZero : Number → Bool
  | .int n => n == 0
  | .float x => x == 0.0

/-- Exact comparison of an integer with a floating-point number, and the usual order otherwise.
Nothing compares with what is not a number. -/
def compare? : Number → Number → Option Ordering
  | .int m, .int n => some (compare m n)
  | .int m, .float y => Decimal.compareInt? m y
  | .float x, .int n => (Decimal.compareInt? n x).map Ordering.swap
  | .float x, .float y =>
    if x < y then some .lt else if y < x then some .gt else if x == y then some .eq else none

/-- A whole floating-point result is turned into the integer it equals. -/
def normalize : Number → Number
  | .int n => .int n
  | .float x =>
    match Decimal.whole? x with
    | some n => .int n
    | none => .float x

end Number

/-- The four operations of arithmetic. -/
inductive Operation where
  | add
  | sub
  | mul
  | div
deriving DecidableEq

namespace Operation

/-- The operation that an operator symbol names. -/
def ofSymbol? : String → Option Operation
  | "+" => some .add
  | "-" => some .sub
  | "*" => some .mul
  | "/" => some .div
  | _ => none

/-- The operation on integers: exact, apart from quotients. -/
def onInts : Operation → Int → Int → Option Number
  | .add, m, n => some (.int (m + n))
  | .sub, m, n => some (.int (m - n))
  | .mul, m, n => some (.int (m * n))
  | .div, m, n => (Decimal.ofQuotient? m n).map .float

def onFloats : Operation → Float → Float → Float
  | .add, x, y => x + y
  | .sub, x, y => x - y
  | .mul, x, y => x * y
  | .div, x, y => x / y

/-- The operation on numbers. There is no result where an integer operand or an integer quotient is
too large for a floating-point number; a zero divisor is excluded by the caller. -/
def result? (op : Operation) : Number → Number → Option Number
  | .int m, .int n => op.onInts m n
  | a, b => do
    let x ← a.toFloat?
    let y ← b.toFloat?
    return .float (op.onFloats x y)

end Operation

end Clausal
