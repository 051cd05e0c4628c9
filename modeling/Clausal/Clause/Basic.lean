import Clausal.Bindings.Substitute
import Clausal.Fault

/-!
# Facts, goals and rules

A fact is a predicate applied to arguments. A goal is one that is to be proved, or to be refuted if
it is negated. A rule states that its head holds when every goal of its body does.
-/

namespace Clausal

/-- A predicate applied to arguments, asserted as true. -/
structure Fact where
  predicate : String
  args : List Term := []
deriving Inhabited

/-- One literal of a rule body or a query. -/
structure Goal where
  predicate : String
  args : List Term := []
  negated : Bool := false
deriving Inhabited

/-- A head that holds when every goal of the body holds. -/
structure Rule where
  head : Fact
  body : List Goal
deriving Inhabited

/-- A compound term; its functor has a name. -/
def Term.compound? (functor : String) (args : List Term) : Except Fault Term :=
  if functor = "" then .error (.conversion .emptyFunctor) else .ok (.compound functor args)

namespace Fact

/-- A fact; its predicate has a name. -/
def of? (predicate : String) (args : List Term) : Except Fault Fact :=
  if predicate = "" then .error (.conversion .emptyFact) else .ok ⟨predicate, args⟩

def arity (f : Fact) : Nat := f.args.length

def isGround (f : Fact) : Bool := Term.isGroundAll f.args

/-- The variables of the arguments from left to right, with repetitions. -/
def vars (f : Fact) : List String := Term.varsAll f.args

/-- Equality up to close floating-point leaves. Facts are compared as values, whichever objects hold
them: a fact with a leaf that is not finite is not equal to any fact, itself included. -/
def close (f g : Fact) : Bool :=
  f.predicate == g.predicate && Term.closeAll f.args g.args

/-- Replaces every bound variable by its value. -/
def substitute? (f : Fact) (b : Bindings) : Option Fact :=
  (b.substituteAll? f.args).map fun args => { f with args }

def mapVars (r : String → String) (f : Fact) : Fact :=
  { f with args := Term.mapVarsAll r f.args }

/-- The fact as one term: an atom if it has no arguments. -/
def toTerm (f : Fact) : Term :=
  if f.args.isEmpty then .atom f.predicate else .compound f.predicate f.args

end Fact

namespace Goal

/-- A goal; its predicate has a name. -/
def of? (predicate : String) (args : List Term) (negated : Bool) : Except Fault Goal :=
  if predicate = "" then .error (.conversion .emptyGoal) else .ok ⟨predicate, args, negated⟩

/-- The goal that asks for a fact. -/
def ofFact (f : Fact) (negated : Bool) : Goal := ⟨f.predicate, f.args, negated⟩

def arity (g : Goal) : Nat := g.args.length

def positive (g : Goal) : Goal := { g with negated := false }

def isGround (g : Goal) : Bool := Term.isGroundAll g.args

def vars (g : Goal) : List String := Term.varsAll g.args

def close (g h : Goal) : Bool :=
  g.predicate == h.predicate && Term.closeAll g.args h.args && g.negated == h.negated

def substitute? (g : Goal) (b : Bindings) : Option Goal :=
  (b.substituteAll? g.args).map fun args => { g with args }

def mapVars (r : String → String) (g : Goal) : Goal :=
  { g with args := Term.mapVarsAll r g.args }

end Goal

namespace Rule

def predicate (r : Rule) : String := r.head.predicate

/-- The variables of head and body from left to right, with repetitions. -/
def vars (r : Rule) : List String := r.head.vars ++ r.body.flatMap Goal.vars

theorem mem_vars {r : Rule} {x : String} :
    x ∈ r.vars ↔ x ∈ r.head.vars ∨ ∃ g ∈ r.body, x ∈ g.vars := by
  rw [vars, List.mem_append, List.mem_flatMap]

def close (r s : Rule) : Bool :=
  r.head.close s.head && r.body.length == s.body.length &&
    (r.body.zip s.body).all fun (g, h) => g.close h

def substitute? (r : Rule) (b : Bindings) : Option Rule := do
  let head ← r.head.substitute? b
  let body ← r.body.mapM (·.substitute? b)
  return ⟨head, body⟩

def mapVars (f : String → String) (r : Rule) : Rule :=
  ⟨r.head.mapVars f, r.body.map (·.mapVars f)⟩

end Rule

inductive Clause where
  | fact (f : Fact)
  | rule (r : Rule)

/-!
## Renaming clauses apart

Every use of a clause gets its own variables: each variable is replaced by its name with a suffix
behind a `#`. Renaming is a substitution, so a name that is itself the renamed form of another
variable of the clause is renamed along with it.
-/

def suffixed (suffix name : String) : String := name ++ "#" ++ suffix

/-- The end of the chain of renamed forms of a name, as long as they are names to be renamed. -/
def renamed (names : List String) (suffix : String) : Nat → String → String
  | 0, x => x
  | n + 1, x => if names.contains x then renamed names suffix n (suffixed suffix x) else x

/-- Renames a variable of a clause with the given variables. A chain of renamed forms grows with
every step, so it is not longer than the list of names. -/
def renameVar (names : List String) (suffix : String) (x : String) : String :=
  renamed names suffix names.length x

/-- A copy of the fact with its own variables. -/
def Fact.rename (suffix : String) (f : Fact) : Fact :=
  f.mapVars (renameVar f.vars.eraseDups suffix)

/-- A copy of the rule with its own variables, the same in head and body. -/
def Rule.rename (suffix : String) (r : Rule) : Rule :=
  r.mapVars (renameVar r.vars.eraseDups suffix)

end Clausal
