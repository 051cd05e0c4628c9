import Clausal.Number

/-!
# Terms

A term is a variable, a constant or a compound term. Constants are atoms, integers, floating-point
numbers and strings. Two terms are *close* when they agree except that corresponding floating-point
leaves may differ by less than the machine epsilon; this relation is not transitive.
-/

namespace Clausal

inductive Term where
  | var (name : String)
  | atom (name : String)
  | int (value : Int)
  | float (value : Float)
  | str (value : String)
  | compound (functor : String) (args : List Term)
deriving Inhabited

namespace Term

/-- The distance below which two floating-point leaves count as equal: two to the power −52. -/
def epsilon : Float := Float.ofBits 0x3CB0000000000000

/-- Whether two floating-point leaves count as equal. Infinities and what is not a number are equal
to nothing. -/
def closeFloats (x y : Float) : Bool :=
  decide ((x - y).abs < epsilon)

mutual

/-- Equality of terms up to close floating-point leaves. -/
def close : Term → Term → Bool
  | .var x, .var y => x == y
  | .atom x, .atom y => x == y
  | .int m, .int n => m == n
  | .float x, .float y => closeFloats x y
  | .str s, .str t => s == t
  | .compound f as, .compound g bs => f == g && closeAll as bs
  | _, _ => false

def closeAll : List Term → List Term → Bool
  | [], [] => true
  | a :: as, b :: bs => close a b && closeAll as bs
  | _, _ => false

end

def isNumeric : Term → Bool
  | .int _ | .float _ => true
  | _ => false

def isVar : Term → Bool
  | .var _ => true
  | _ => false

def number? : Term → Option Number
  | .int n => some (.int n)
  | .float x => some (.float x)
  | _ => none

/-- The number of arguments of a compound term. -/
def arity? : Term → Option Nat
  | .compound _ args => some args.length
  | _ => none

mutual

/-- The variables of a term from left to right, with repetitions. -/
def vars : Term → List String
  | .var x => [x]
  | .compound _ args => varsAll args
  | _ => []

def varsAll : List Term → List String
  | [] => []
  | t :: ts => vars t ++ varsAll ts

end

mutual

def isGround : Term → Bool
  | .var _ => false
  | .compound _ args => isGroundAll args
  | _ => true

def isGroundAll : List Term → Bool
  | [] => true
  | t :: ts => isGround t && isGroundAll ts

end

/-- Variable names in order of first appearance. -/
def orderedVars (ts : List Term) : List String :=
  (varsAll ts).eraseDups

mutual

/-- The number of compound subterms, the term itself included. -/
def compounds : Term → Nat
  | .compound _ args => compoundsAll args + 1
  | _ => 0

def compoundsAll : List Term → Nat
  | [] => 0
  | t :: ts => compounds t + compoundsAll ts

end

mutual

/-- Replaces each variable by another variable. -/
def mapVars (f : String → String) : Term → Term
  | .var x => .var (f x)
  | .compound g args => .compound g (mapVarsAll f args)
  | t => t

def mapVarsAll (f : String → String) : List Term → List Term
  | [] => []
  | t :: ts => mapVars f t :: mapVarsAll f ts

end

end Term

def Number.toTerm : Number → Term
  | .int n => .int n
  | .float x => .float x

end Clausal
