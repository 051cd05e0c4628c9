import Clausal.Clause.Basic
import Clausal.Search.Selection

/-!
# Resolving a goal with a clause

A goal of a user-defined predicate is resolved by unifying its arguments with those of a fact or of
the head of a rule. A clause with variables is copied with variables of its own first. Ground facts
need no copy; a rule always counts as copied.
-/

namespace Clausal.Search

/-- What one attempt yields: a fault, no successor, or a successor state. -/
abbrev Attempt := Except Fault (Option State) × Progress

/-- A copy of a fact for one use. -/
def copyFact (mode : RenamingMode) (depth : Nat) (f : Fact) (p : Progress) : Fact × Progress :=
  if f.isGround then (f, p)
  else
    let (suffix, p') := p.nextSuffix mode depth
    (f.rename suffix, p')

def copyRule (mode : RenamingMode) (depth : Nat) (r : Rule) (p : Progress) : Rule × Progress :=
  let (suffix, p') := p.nextSuffix mode depth
  (r.rename suffix, p')

/-- Resolves the selected goal with a fact. -/
def tryFact (o : Options) (sel : Selection) (depth : Nat) (f : Fact) (p : Progress) : Attempt :=
  if f.arity ≠ sel.goal.arity then (.ok none, p)
  else
    let (f', p') := copyFact o.mode depth f p
    match o.unifier.unifyArgs f'.args sel.goal.args sel.bindings with
    | .error e => (.error e, p')
    | .ok none => (.ok none, p')
    | .ok (some b) => (.ok (some ⟨sel.rest, b, depth + 1⟩), p')

/-- Resolves the selected goal with a rule: its body comes before the other goals. -/
def tryRule (o : Options) (sel : Selection) (depth : Nat) (r : Rule) (p : Progress) : Attempt :=
  if r.head.arity ≠ sel.goal.arity then (.ok none, p)
  else
    let (r', p') := copyRule o.mode depth r p
    match o.unifier.unifyArgs r'.head.args sel.goal.args sel.bindings with
    | .error e => (.error e, p')
    | .ok none => (.ok none, p')
    | .ok (some b) => (.ok (some ⟨r'.body ++ sel.rest, b, depth + 1⟩), p'.applyRule)

/-- The fault of a state for which no level is left. Under a limit it lies too deep; the
report shows its first goals, which need a text. Without a limit there is no such state in a
search that ends. -/
def tooDeep (o : Options) (s : State) (p : Progress) : Fault × Progress :=
  match o.limit.floor with
  | none => (.divergent, p)
  | some limit =>
    let shown := s.goals.take 3
    if shown.all Goal.hasText then (.depthExceeded s.depth o.limit, p.report (.tooDeep limit shown))
    else (.unwritable, p)

/-- Reports the goal that is resolved, if the search is traced. -/
def traceGoal (o : Options) (sel : Selection) (depth : Nat) (p : Progress) :
    Except Fault Progress :=
  if o.trace then
    match sel.goal.substitute? sel.bindings with
    | none => .error .endless
    | some g => .ok (p.report (.resolving depth g))
  else .ok p

end Clausal.Search
