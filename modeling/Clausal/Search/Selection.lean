import Clausal.Builtin
import Clausal.Search.Options

/-!
# Choosing the next goal

The baseline strategy takes the first goal. The constrained strategy first binds the variables of
goals that only one fact can satisfy, and then takes the goal with the fewest unbound arguments and
candidate clauses among those that are ready. Negated goals and numeric built-in goals are ready
only when their inputs are bound, since otherwise their answers could change later.
-/

namespace Clausal.Search

/-- Whether running a goal now gives the same answers as running it later; nothing if the bindings
are cyclic. -/
def isReady? (g : Goal) (b : Bindings) : Option Bool :=
  if g.negated || (Comparison.ofSymbol? g.predicate).isSome && g.arity == Builtin.arity then
    (b.substituteAll? g.args).map Term.isGroundAll
  else
    match g.predicate == "is", g.args with
    | true, [_, e] => (b.substitute? e).map Term.isGround
    | _, _ => some true

/-- Whether some argument of a goal is an unbound variable. -/
def hasUnbound (g : Goal) (b : Bindings) : Bool :=
  g.args.any fun t => (b.resolve t).isVar

/-- What an unbound variable argument adds to the score of a goal. -/
def unboundWeight : Nat := 10

/-- The score of a goal: ten for each unbound argument and one for each candidate clause. -/
def score (kb : KnowledgeBase) (g : Goal) (b : Bindings) : Nat :=
  unboundWeight * g.args.countP (fun t => (b.resolve t).isVar) +
    ((kb.factsFor g.predicate).length + (kb.rulesFor g.predicate).length)

/-- The place of the ready goal with the lowest score, the first one among equals, given the best
place and score so far; nothing if the bindings are cyclic. -/
def selectFrom? (kb : KnowledgeBase) (b : Bindings) :
    Nat → Option (Nat × Nat) → List Goal → Option (Option (Nat × Nat))
  | _, best, [] => some best
  | i, best, g :: gs =>
    match isReady? g b with
    | none => none
    | some false => selectFrom? kb b (i + 1) best gs
    | some true =>
      let s := score kb g b
      match best with
      | some (j, t) => selectFrom? kb b (i + 1) (if s < t then some (i, s) else some (j, t)) gs
      | none => selectFrom? kb b (i + 1) (some (i, s)) gs

/-- The place of the most constrained goal that is ready, or of the first goal if none is. -/
def selectIndex? (kb : KnowledgeBase) (gs : List Goal) (b : Bindings) : Option Nat :=
  match selectFrom? kb b 0 none gs with
  | none => none
  | some (some (i, _)) => some i
  | some none => some 0

/-- Binds what only one fact can satisfy: a positive goal whose predicate has one fact, which is
ground, and no rules is unified with that fact if it has an unbound argument. The answer is `none`
if a goal cannot be satisfied. -/
def propagate (kb : KnowledgeBase) (u : Unifier) :
    List Goal → Bindings → Except Fault (Option Bindings)
  | [], b => .ok (some b)
  | g :: gs, b =>
    if g.negated || isBuiltin g.predicate then propagate kb u gs b
    else
      match kb.factsFor g.predicate, kb.rulesFor g.predicate with
      | [f], [] =>
        if f.arity ≠ g.arity then .ok none
        else if f.isGround && hasUnbound g b then
          match u.unifyArgs f.args g.args b with
          | .error e => .error e
          | .ok none => .ok none
          | .ok (some b') => propagate kb u gs b'
        else propagate kb u gs b
      | _, _ => propagate kb u gs b

/-- A goal that was chosen, the other goals, and the bindings under which it is resolved. -/
structure Selection where
  goal : Goal
  rest : List Goal
  bindings : Bindings

/-- Takes out the goal at a place. -/
def pick (g : Goal) (gs : List Goal) (i : Nat) : Goal × List Goal :=
  ((g :: gs).getD i g, (g :: gs).eraseIdx i)

/-- Chooses among the goals `g :: gs`; nothing if they cannot all be satisfied. -/
def select (kb : KnowledgeBase) (u : Unifier) (strategy : Strategy) (g : Goal) (gs : List Goal)
    (b : Bindings) : Except Fault (Option Selection) :=
  match strategy with
  | .baseline => .ok (some ⟨g, gs, b⟩)
  | .constrained =>
    match propagate kb u (g :: gs) b with
    | .error e => .error e
    | .ok none => .ok none
    | .ok (some b') =>
      match selectIndex? kb (g :: gs) b' with
      | none => .error .endless
      | some i =>
        let (goal, rest) := pick g gs i
        .ok (some ⟨goal, rest, b'⟩)

end Clausal.Search
