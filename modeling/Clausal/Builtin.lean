import Clausal.Arithmetic
import Clausal.Clause.Basic
import Clausal.Unify.Basic

/-!
# Built-in predicates

The built-in predicates take two arguments: `=` unifies them, the comparisons compare two numbers,
and `is` evaluates its right argument and unifies the left one with the value. A built-in predicate
that does not apply to its arguments fails.
-/

namespace Clausal

inductive Comparison where
  | lt
  | gt
  | le
  | ge
deriving DecidableEq

namespace Comparison

/-- The comparison that a predicate names. -/
def ofSymbol? : String → Option Comparison
  | "<" => some .lt
  | ">" => some .gt
  | "<=" => some .le
  | ">=" => some .ge
  | _ => none

/-- Whether the comparison holds of two numbers. -/
def holds (c : Comparison) (a b : Number) : Bool :=
  match c, a.compare? b with
  | .lt, some .lt => true
  | .gt, some .gt => true
  | .le, some .lt | .le, some .eq => true
  | .ge, some .gt | .ge, some .eq => true
  | _, _ => false

end Comparison

namespace Builtin

def names : List String := ["=", "<", ">", "<=", ">=", "is"]

def arity : Nat := 2

/-- The value of an arithmetic expression as a term; nothing if it has no value. -/
def valueTerm? (t : Term) (b : Bindings) : Except Fault (Option Term) :=
  match b.evaluate t with
  | .ok n => .ok (some n.normalize.toTerm)
  | .error (.arithmetic _) => .ok none
  | .error e => .error e

/-- Solves a built-in predicate on two resolved arguments. -/
def solveResolved (u : Unifier) (predicate : String) (left right : Term) (b : Bindings) :
    Except Fault (Option Bindings) :=
  if predicate = "=" then u.unify left right b
  else
    match Comparison.ofSymbol? predicate with
    | some c =>
      match left.number?, right.number? with
      | some m, some n => .ok (if c.holds m n then some b else none)
      | _, _ => .ok none
    | none =>
      if predicate = "is" then
        match valueTerm? right b with
        | .error e => .error e
        | .ok none => .ok none
        | .ok (some value) => u.unify left value b
      else .ok none

/-- Solves a goal with a built-in predicate, whether or not it is negated: the extended bindings, or
nothing if it fails. -/
def solve (u : Unifier) (g : Goal) (b : Bindings) : Except Fault (Option Bindings) :=
  match g.args with
  | [l, r] => solveResolved u g.predicate (b.resolve l) (b.resolve r) b
  | _ => .ok none

end Builtin

def isBuiltin (predicate : String) : Bool :=
  Builtin.names.contains predicate

end Clausal
