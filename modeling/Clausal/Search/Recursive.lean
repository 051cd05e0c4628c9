import Clausal.Search.Machine

/-!
# The search as a recursive procedure

Without a stack, the search reads as a recursion on the levels that are left: a state for which
there is none is a fault, a state without goals is a result, and any other state yields what its
successors yield, one after the other. A negated goal has one successor if the same recursion finds
no proof of the goal itself.
-/

namespace Clausal.Search

/-- What a walk through states has found: results from the last to the first, and the progress. -/
structure Found where
  results : List Bindings
  progress : Progress

/-- How a walk ends: it may go on, it has enough results, or it meets a fault. -/
inductive Walk where
  | more (f : Found)
  | enough (f : Found)
  | failed (e : Fault) (p : Progress)

/-- The successors that one clause after the other gives a selected goal, facts before rules. -/
def attempts (t : Task) (sel : Selection) (depth : Nat) : List (Progress → Attempt) :=
  (t.kb.factsFor sel.goal.predicate).map (tryFact t.options sel depth) ++
    (t.kb.rulesFor sel.goal.predicate).map (tryRule t.options sel depth)

/-- Walks through the successors of a state in order, until one of them ends the walk. -/
def walkAttempts (walk : State → Found → Walk) : List (Progress → Attempt) → Found → Walk
  | [], f => .more f
  | attempt :: rest, f =>
    match attempt f.progress with
    | (.error e, p) => .failed e p
    | (.ok none, p) => walkAttempts walk rest { f with progress := p }
    | (.ok (some s), p) =>
      match walk s { f with progress := p } with
      | .more f' => walkAttempts walk rest f'
      | stopped => stopped

def Found.add (f : Found) (wanted : Option Nat) (b : Bindings) : Walk :=
  let f' := { f with results := b :: f.results }
  if Machine.isEnough wanted f'.results then .enough f' else .more f'

/-- Walks through a state and all that follows from it, with the given number of levels left. -/
def walk (t : Task) : Nat → Strategy → Option Nat → State → Found → Walk
  | 0, _, _, s, f =>
    let (e, p) := tooDeep t.options s f.progress
    .failed e p
  | n + 1, strategy, wanted, s, f =>
    let p := f.progress.visit s.depth
    match s.goals with
    | [] => { f with progress := p }.add wanted s.bindings
    | g :: gs =>
      let p := p.infer
      match select t.kb t.options.unifier strategy g gs s.bindings with
      | .error e => .failed e p
      | .ok none => .more { f with progress := p.prune }
      | .ok (some sel) =>
        match traceGoal t.options sel s.depth p with
        | .error e => .failed e p
        | .ok p =>
          let next (b : Bindings) : State := ⟨sel.rest, b, s.depth + 1⟩
          if sel.goal.negated then
            let inner : State := ⟨[sel.goal.positive], sel.bindings, s.depth + 1⟩
            match walk t n t.options.strategy (some 1) inner ⟨[], p⟩ with
            | .failed e p => .failed e p
            | .enough inside => .more { f with progress := inside.progress }
            | .more inside =>
              walk t n strategy wanted (next sel.bindings) { f with progress := inside.progress }
          else if isBuiltin sel.goal.predicate then
            match Builtin.solve t.options.unifier sel.goal sel.bindings with
            | .error e => .failed e p
            | .ok none => .more { f with progress := p }
            | .ok (some b) => walk t n strategy wanted (next b) { f with progress := p }
          else
            walkAttempts (walk t n strategy wanted) (attempts t sel s.depth)
              { f with progress := p }

def Walk.report : Walk → Report
  | .more f => ⟨.ok f.results.reverse, f.progress⟩
  | .enough f => ⟨.ok f.results.reverse, f.progress⟩
  | .failed e p => ⟨.error e, p⟩

end Clausal.Search
