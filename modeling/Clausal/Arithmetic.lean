import Clausal.Bindings.Substitute
import Clausal.Fault

/-!
# Arithmetic

A numeric term has its own value, and a compound term of two arguments whose functor is one of the
four operators has the value of the operation. Everything else has none.
-/

namespace Clausal

/-- The fault that a term is not arithmetic. The message shows the term, which needs a text. -/
def notArithmetic (t : Term) : Fault :=
  if t.hasText then .arithmetic (.invalid t) else .unwritable

/-- The fault that an operation has too large a result. The message shows the operation. -/
def overflowIn (t : Term) : Fault :=
  if t.hasText then .arithmetic (.overflow t) else .unwritable

/-- The value of an operation, of which `t` is the term. -/
def Operation.compute (op : Operation) (t : Term) (a b : Number) : Except Fault Number :=
  if op = .div && b.isZero then .error (.arithmetic .divisionByZero)
  else
    match op.result? a b with
    | some n => .ok n
    | none => .error (overflowIn t)

/-- The value of a term, in which `look` gives the values of variables. -/
def Term.evaluateWith (look : String → Except Fault Number) : Term → Except Fault Number
  | .int n => .ok (.int n)
  | .float x => .ok (.float x)
  | .var x => look x
  | .compound f [l, r] =>
    match Operation.ofSymbol? f with
    | none => .error (.arithmetic (.unknownOperator f))
    | some op =>
      match evaluateWith look l with
      | .error e => .error e
      | .ok a =>
        match evaluateWith look r with
        | .error e => .error e
        | .ok b => op.compute (.compound f [l, r]) a b
  | t => .error (notArithmetic t)

namespace Bindings

/-- The value of a variable, if it is found within a number of steps through compound terms. -/
def numberOf (b : Bindings) : Nat → String → Except Fault Number
  | 0, _ => .error .endless
  | n + 1, x =>
    match b.deref x with
    | .var y => .error (notArithmetic (.var y))
    | t => t.evaluateWith (b.numberOf n)

/-- The value of an arithmetic expression under bindings. -/
def evaluate (b : Bindings) (t : Term) : Except Fault Number :=
  t.evaluateWith (b.numberOf (b.count + 1))

end Bindings

def Term.toNumber (t : Term) : Except Fault Number :=
  match t.number? with
  | some n => .ok n
  | none => .error (if t.hasText then .arithmetic (.notNumber t) else .unwritable)

end Clausal
