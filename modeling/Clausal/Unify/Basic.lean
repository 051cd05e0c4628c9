import Clausal.Bindings.Substitute
import Clausal.Fault

/-!
# Unification

Two terms are unified under bindings by resolving both and comparing what they resolve to. A
variable is bound to the other term, unless the occurs check finds it inside that term.
Compound terms are unified argument by argument from left to right, each pair under the
bindings of the pairs before.

The number of nested pairs is bounded by a parameter. Through acyclic bindings no path meets the
same compound subterm twice, so their number bounds the nesting. Without the occurs check bindings
may be cyclic. Then a path that meets the same two compound subterms twice, with no variable bound
in between, goes on forever, so the number of pairs of compound subterms bounds the nesting from one
bound variable to the next.
-/

namespace Clausal

/-!
## The record of a unification

Unification reports each of its steps. The report exists as text whether or not somebody reads it,
so a step over an integer without written form is a fault.
-/

inductive Step where
  | argument (place : Nat) (s t : Term)
  | comparing (s t : Term)
  | sameVariable
  | bound (x : String) (t : Term)
  | occurs (x : String) (t : Term)
  | identical
  | different (s t : Term)
  | functors (f g : String)
  | arities (m n : Nat)

namespace Step

/-- The step in words. -/
def text : Step → String
  | argument place s t =>
    "  Unifying arg " ++ toString place ++ ": " ++ s.text ++ " with " ++ t.text
  | comparing s t => "Unifying: " ++ s.text ++ " with " ++ t.text
  | sameVariable => "Same variable"
  | bound x t => "Bound: " ++ x ++ " = " ++ t.text
  | occurs x t => "Occurs check failed: " ++ x ++ " occurs in " ++ t.text
  | identical => "Terms are identical"
  | different s t => "Cannot unify: " ++ s.text ++ " vs " ++ t.text
  | functors f g => "Different functors: " ++ f ++ " vs " ++ g
  | arities m n => "Different arity: " ++ toString m ++ " vs " ++ toString n

/-- Whether every integer of the step has a written form. -/
def hasText : Step → Bool
  | argument _ s t | comparing s t | different s t => s.hasText && t.hasText
  | bound _ t | occurs _ t => t.hasText
  | sameVariable | identical | functors _ _ | arities _ _ => true

end Step

/-! ## Outcomes -/

/-- How a unification ends. -/
inductive Outcome where
  | unified (b : Bindings)
  | clash
  | endless

namespace Unify

/-- An outcome, with the steps that led to it from the last to the first. -/
abbrev Run := Outcome × List Step

/-- Binds a variable that is unbound to a term. -/
def bind (occursCheck : Bool) (x : String) (t : Term) (b : Bindings) (log : List Step) : Run :=
  if occursCheck then
    match b.occurs? x t with
    | none => (.endless, log)
    | some true => (.clash, .occurs x t :: log)
    | some false => (.unified (b.insert x t), .bound x t :: log)
  else (.unified (b.insert x t), .bound x t :: log)

/-- Unifies corresponding terms of two lists by `pair`, from left to right. -/
def pairs (pair : Term → Term → Bindings → List Step → Run) :
    Nat → List Term → List Term → Bindings → List Step → Run
  | place, s :: ss, t :: ts, b, log =>
    match pair s t b (.argument place s t :: log) with
    | (.unified b', log') => pairs pair (place + 1) ss ts b' log'
    | r => r
  | _, _, _, b, log => (.unified b, log)

/-- Unifies two lists of arguments by `pair`; they have to be of one length. -/
def arguments (pair : Term → Term → Bindings → List Step → Run)
    (ss ts : List Term) (b : Bindings) (log : List Step) : Run :=
  if ss.length = ts.length then pairs pair 0 ss ts b log
  else (.clash, .arities ss.length ts.length :: log)

/-- Unifies two terms that do not resolve any further, compound terms by `pair`. -/
def resolved (occursCheck : Bool) (pair : Term → Term → Bindings → List Step → Run)
    (s t : Term) (b : Bindings) (log : List Step) : Run :=
  match s, t with
  | .var x, .var y =>
    if x == y then (.unified b, .sameVariable :: log) else bind occursCheck x (.var y) b log
  | .var x, t => bind occursCheck x t b log
  | s, .var y => bind occursCheck y s b log
  | .compound f ss, .compound g ts =>
    if f == g then arguments pair ss ts b log else (.clash, .functors f g :: log)
  | s, t =>
    if s.close t then (.unified b, .identical :: log) else (.clash, .different s t :: log)

/-- Unifies two terms whose common structure nests less deep than the bound. -/
def terms (occursCheck : Bool) : Nat → Term → Term → Bindings → List Step → Run
  | 0, _, _, _, log => (.endless, log)
  | n + 1, s, t, b, log =>
    let s' := b.resolve s
    let t' := b.resolve t
    resolved occursCheck (terms occursCheck n) s' t' b (.comparing s' t' :: log)

/-- The different variables in terms and bindings. -/
def allVars (ts : List Term) (b : Bindings) : List String :=
  (Term.varsAll ts ++ b.entries.flatMap fun e => e.1 :: e.2.vars).eraseDups

/-- How often a variable in terms and bindings may be bound. -/
def openCount (ts : List Term) (b : Bindings) : Nat :=
  (allVars ts b).countP b.isOpen

/-- Runs a unification with a bound on the nesting that suffices for acyclic bindings. If it does
not, the bindings are cyclic, and a larger bound that suffices for them is tried. -/
def within (ts : List Term) (b : Bindings) (run : Nat → Run) : Run :=
  let size := b.weight + Term.compoundsAll ts
  match run (size + 1) with
  | (.endless, _) => run (size * size * (openCount ts b + 1) + 1)
  | r => r

/-- What a run has to say: a step without text is a fault, and so is endless recursion. -/
def conclude (r : Run) : Except Fault (Option Bindings) :=
  if r.2.all Step.hasText then
    match r.1 with
    | .unified b => .ok (some b)
    | .clash => .ok none
    | .endless => .error .endless
  else .error .unwritable

/-- The texts of the steps of a run, up to the first one that has none. -/
def report (r : Run) : List String :=
  (r.2.reverse.takeWhile Step.hasText).map Step.text

end Unify

/-- How to unify: with or without the occurs check. -/
structure Unifier where
  occursCheck : Bool := true
deriving DecidableEq

namespace Unifier

def run (u : Unifier) (s t : Term) (b : Bindings) : Unify.Run :=
  Unify.within [s, t] b fun n => Unify.terms u.occursCheck n s t b []

def runArgs (u : Unifier) (ss ts : List Term) (b : Bindings) : Unify.Run :=
  Unify.within (ss ++ ts) b fun n => Unify.arguments (Unify.terms u.occursCheck n) ss ts b []

/-- The extended bindings that unify two terms, if there are any. -/
def unify (u : Unifier) (s t : Term) (b : Bindings) : Except Fault (Option Bindings) :=
  Unify.conclude (u.run s t b)

/-- The extended bindings that unify two lists of arguments, if there are any. -/
def unifyArgs (u : Unifier) (ss ts : List Term) (b : Bindings) : Except Fault (Option Bindings) :=
  Unify.conclude (u.runArgs ss ts b)

end Unifier

end Clausal
