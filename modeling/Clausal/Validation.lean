import Clausal.Builtin
import Clausal.Clause.Text

/-!
# Validation of clauses

A fact should be ground. A rule should have goals, and every variable of its head should occur
in a goal that is not negated. No clause should be for a built-in predicate, and every literal
should agree with the known arity of its predicate. A variable that occurs only once in a rule
is worth a warning.
-/

namespace Clausal

/-- What a check has to say: an error if the clause fails it, or perhaps a warning. -/
structure Verdict where
  error : Option String := none
  warning : Option String := none
deriving DecidableEq

namespace Verdict

def accepted : Verdict := {}

def rejected (reason : String) : Verdict := { error := some reason }

def isValid (v : Verdict) : Bool := v.error.isNone

/-- The first failure; without one, all warnings together. -/
def combine (vs : List Verdict) : Verdict :=
  match vs.find? (!·.isValid) with
  | some v => v
  | none =>
    match vs.filterMap (·.warning) with
    | [] => accepted
    | ws => { warning := some ("; ".intercalate ws) }

end Verdict

namespace Validation

/-- The known arities of predicates. -/
abbrev Signatures := List (String × Nat)

/-- Different names in the order of their characters. -/
def sortedNames (names : List String) : List String :=
  names.eraseDups.mergeSort fun a b => decide (a ≤ b)

def nameList (names : List String) : String :=
  ", ".intercalate names

/-- Checks that a rule has goals and is not for a built-in predicate. -/
def wellFormed (r : Rule) : Verdict :=
  if r.body.isEmpty then .rejected "Rule body cannot be empty"
  else if isBuiltin r.predicate then
    .rejected ("Rule head cannot redefine built-in predicate " ++ r.predicate)
  else .accepted

/-- The variables of the goals that are not negated. -/
def positiveVars (r : Rule) : List String :=
  (r.body.filter (!·.negated)).flatMap Goal.vars

/-- The variables of the head that no goal binds. -/
def unboundVars (r : Rule) : List String :=
  sortedNames (r.head.vars.filter fun x => !(positiveVars r).contains x)

/-- Checks that the goals bind every variable of the head. -/
def safe (r : Rule) : Verdict :=
  match unboundVars r with
  | [] => .accepted
  | xs => .rejected ("Unsafe rule: variables " ++ nameList xs ++ " appear in head but not in body")

/-- The variables with exactly one occurrence in a rule. -/
def singletons (r : Rule) : List String :=
  sortedNames (r.vars.filter fun x => r.vars.count x == 1)

/-- Warns of variables that occur only once. -/
def singletonWarning (r : Rule) : Verdict :=
  match singletons r with
  | [] => .accepted
  | xs => { warning := some ("Singleton variables: " ++ nameList xs ++ " (appear only once)") }

def structural (warnSingletons : Bool) (r : Rule) : Verdict :=
  if !(wellFormed r).isValid then wellFormed r
  else if !(safe r).isValid then safe r
  else if warnSingletons then singletonWarning r
  else .accepted

/-- Checks the arity of a literal. -/
def signature (table : Signatures) (predicate : String) (arity : Nat) : Verdict :=
  let name (n : Nat) := predicate ++ "/" ++ toString n
  if isBuiltin predicate then
    if arity = Builtin.arity then .accepted
    else
      .rejected ("Arity mismatch: " ++ name arity ++ " (built-in is " ++ name Builtin.arity ++ ")")
  else
    match table.lookup predicate with
    | some known =>
      if known = arity then .accepted
      else .rejected ("Arity mismatch: " ++ name arity ++ " (existing: " ++ name known ++ ")")
    | none => .accepted

/-- Checks the arities of goals. -/
def goals (table : Signatures) (gs : List Goal) : Verdict :=
  .combine (gs.map fun g => signature table g.predicate g.arity)

/-- Checks the arities of a rule, the head first. -/
def ruleSignatures (table : Signatures) (r : Rule) : Verdict :=
  .combine (signature table r.predicate r.head.arity ::
    r.body.map fun g => signature table g.predicate g.arity)

/-- Checks the form of a rule, its arities if there is a table, or both. -/
def ruleChecks (table : Option Signatures) (warnSingletons form arities : Bool)
    (r : Rule) : Verdict :=
  .combine ((if form then [structural warnSingletons r] else []) ++
    (match arities, table with
      | true, some table => [ruleSignatures table r]
      | _, _ => []))

def rule (table : Option Signatures) (warnSingletons : Bool) (r : Rule) : Verdict :=
  ruleChecks table warnSingletons true true r

/-- Checks that a fact is ground and not for a built-in predicate. The message shows the fact, which
needs a text. -/
def groundFact (f : Fact) : Except Fault Verdict :=
  if isBuiltin f.predicate then
    .ok (.rejected ("Cannot assert a fact for built-in predicate " ++ f.predicate))
  else
    match sortedNames f.vars with
    | [] => .ok .accepted
    | xs =>
      if f.hasText then
        .ok (.rejected ("Fact is not ground: variables " ++ nameList xs ++ " in " ++ f.text))
      else .error .unwritable

def fact (table : Option Signatures) (f : Fact) : Except Fault Verdict := do
  let ground ← groundFact f
  match table with
  | some table => return .combine [ground, signature table f.predicate f.arity]
  | none => return .combine [ground]

end Validation

end Clausal
