import Clausal.Search.Resolve

/-!
# The search machine

The search runs depth first over an explicit stack. A frame is a state that is still to be visited,
or a selected goal with the clauses that have not been tried for it, so alternatives are produced
only when they are needed. A negated goal starts a search of its own: the searches that wait for one
are suspended, each with the state in which it goes on if the negated goal has no proof.

A run takes step after step until one of them stops it. Under a depth limit this always happens;
without one a run may go on forever, and then it has no report.
-/

namespace Clausal.Search

/-- What is searched, how, and for how many results. -/
structure Task where
  kb : KnowledgeBase
  options : Options
  wanted : Option Nat

/-- A selected goal with the clauses that are left to try. -/
structure Choices where
  selection : Selection
  depth : Nat
  facts : List Fact
  rules : List Rule

/-- An entry of the stack. -/
inductive Frame where
  | state (s : State)
  | choices (c : Choices)

/-- One search: its strategy and its stack. -/
structure Level where
  strategy : Strategy
  frames : List Frame

/-- A configuration of the machine: the running search, the searches that wait for it with the
states in which they go on, the results from the last to the first, and the progress. -/
structure Machine where
  level : Level
  suspended : List (Level × State)
  results : List Bindings
  progress : Progress

/-- What a run ends with. -/
structure Report where
  outcome : Except Fault (List Bindings)
  progress : Progress

/-- What a step leads to. -/
inductive Next where
  | running (m : Machine)
  | stopped (r : Report)

namespace Machine

def withFrames (m : Machine) (frames : List Frame) : Machine :=
  { m with level := { m.level with frames } }

/-- Goes on with another stack and other progress. -/
def proceed (m : Machine) (frames : List Frame) (p : Progress) : Next :=
  .running { m.withFrames frames with progress := p }

def fail (e : Fault) (p : Progress) : Next :=
  .stopped ⟨.error e, p⟩

def finish (m : Machine) : Next :=
  .stopped ⟨.ok m.results.reverse, m.progress⟩

/-- Whether enough results are found. -/
def isEnough (wanted : Option Nat) (results : List Bindings) : Bool :=
  match wanted with
  | none => false
  | some k => decide (k ≤ results.length)

/-- A state without goals is a proof. In a search for a negated goal it refutes the goal; otherwise
its bindings are a result. -/
def prove (t : Task) (m : Machine) (b : Bindings) (frames : List Frame) (p : Progress) : Next :=
  match m.suspended with
  | (level, _) :: rest => .running { m with level, suspended := rest, progress := p }
  | [] =>
    let m' := { m.withFrames frames with results := b :: m.results, progress := p }
    if isEnough t.wanted m'.results then m'.finish else .running m'

/-- Starts a search for a negated goal. -/
def negate (t : Task) (m : Machine) (sel : Selection) (depth : Nat) (frames : List Frame)
    (p : Progress) : Next :=
  .running { m with
    level := ⟨t.options.strategy, [.state ⟨[sel.goal.positive], sel.bindings, depth + 1⟩]⟩
    suspended := ({ m.level with frames }, ⟨sel.rest, sel.bindings, depth + 1⟩) :: m.suspended
    progress := p }

def resolve (t : Task) (m : Machine) (sel : Selection) (depth : Nat) (frames : List Frame)
    (p : Progress) : Next :=
  match traceGoal t.options sel depth p with
  | .error e => fail e p
  | .ok p =>
    if sel.goal.negated then negate t m sel depth frames p
    else if isBuiltin sel.goal.predicate then
      match Builtin.solve t.options.unifier sel.goal sel.bindings with
      | .error e => fail e p
      | .ok none => m.proceed frames p
      | .ok (some b) => m.proceed (.state ⟨sel.rest, b, depth + 1⟩ :: frames) p
    else
      let facts := t.kb.factsFor sel.goal.predicate
      let rules := t.kb.rulesFor sel.goal.predicate
      m.proceed (.choices ⟨sel, depth, facts, rules⟩ :: frames) p

def visit (t : Task) (m : Machine) (s : State) (frames : List Frame) : Next :=
  if t.options.limit.isExceededBy s.depth then
    let (e, p) := tooDeep t.options s m.progress
    fail e p
  else
    let p := m.progress.visit s.depth
    match s.goals with
    | [] => prove t m s.bindings frames p
    | g :: gs =>
      let p := p.infer
      match select t.kb t.options.unifier m.level.strategy g gs s.bindings with
      | .error e => fail e p
      | .ok none => m.proceed frames p.prune
      | .ok (some sel) => resolve t m sel s.depth frames p

/-- Puts the outcome of an attempt on the stack, above the choices that are left. -/
def advance (m : Machine) (left : Choices) (frames : List Frame) : Attempt → Next
  | (.error e, p) => fail e p
  | (.ok none, p) => m.proceed (.choices left :: frames) p
  | (.ok (some s), p) => m.proceed (.state s :: .choices left :: frames) p

/-- Tries the next clause for a selected goal, facts before rules. -/
def choose (t : Task) (m : Machine) (c : Choices) (frames : List Frame) : Next :=
  match c.facts, c.rules with
  | f :: fs, _ =>
    m.advance { c with facts := fs } frames (tryFact t.options c.selection c.depth f m.progress)
  | [], r :: rs =>
    m.advance { c with rules := rs } frames (tryRule t.options c.selection c.depth r m.progress)
  | [], [] => .running (m.withFrames frames)

/-- Goes on after the running search has come to its end: a negated goal without proof holds. -/
def leave (m : Machine) : Next :=
  match m.suspended with
  | [] => m.finish
  | (level, s) :: rest =>
    .running
      { m with level := { level with frames := .state s :: level.frames }, suspended := rest }

def step (t : Task) (m : Machine) : Next :=
  match m.level.frames with
  | [] => m.leave
  | .state s :: frames => visit t m s frames
  | .choices c :: frames => choose t m c frames

variable (t : Task) in
/-- Runs a machine to its end, if it comes to one. -/
def run (m : Machine) : Option Report :=
  match m.step t with
  | .stopped r => some r
  -- As a plain call, the recursion would leave its place in the source in the term.
  | .running m' => by apply run; exact m'
partial_fixpoint

/-- A machine that starts a search from one state. -/
def start (strategy : Strategy) (s : State) (p : Progress) : Machine :=
  ⟨⟨strategy, [.state s]⟩, [], [], p⟩

end Machine

/-- Searches from a state by a strategy, with the progress made before. -/
def search (t : Task) (strategy : Strategy) (s : State) (p : Progress) : Report :=
  ((Machine.start strategy s p).run t).getD ⟨.error .divergent, p⟩

end Clausal.Search
