import Clausal.Decimal.Layout

/-!
# Depth limits

A search is abandoned beyond a depth limit. A limit is a number as it stands in a
configuration: usually a natural number, but a fraction or a truth value is kept as written,
since messages show it.
-/

namespace Clausal

/-- The deepest resolution step allowed. -/
inductive Limit where
  | whole (n : Nat)
  | fraction (x : Float)
  | flag (value : Bool)
deriving DecidableEq

namespace Limit

/-- The largest depth within the limit. A limit that is infinite or not a number bounds nothing. -/
def floor : Limit → Option Nat
  | .whole n => some n
  | .fraction x =>
    match Decimal.view x with
    | .finite p => some p.truncate.toNat
    | _ => none
  | .flag value => some (if value then 1 else 0)

/-- Whether a depth lies beyond the limit. -/
def isExceededBy (l : Limit) (depth : Nat) : Bool :=
  match l.floor with
  | some n => decide (n < depth)
  | none => false

/-- The limit as written. -/
def text : Limit → String
  | .whole n => toString n
  | .fraction x => Decimal.floatText x
  | .flag value => if value then "True" else "False"

/-- The depth limit of a search that sets none. -/
def default : Limit := .whole 1000

end Limit

end Clausal
