import Clausal.Log.Record
import Clausal.Search.Machine

/-!
# Evaluators

An evaluator answers queries against its knowledge base. It keeps the counts of its last search.
-/

namespace Clausal

/-!
## Solutions

A solution is one proof of a query: its bindings, and the variables of the query in the order in
which they appear.
-/

/-- One proof of a query. -/
structure Solution where
  bindings : Bindings
  vars : List String := []

namespace Solution

/-- The variables of goals in order of first appearance. -/
def variablesOf (goals : List Goal) : List String :=
  Term.orderedVars (goals.flatMap Goal.args)

/-- The term to which a variable is bound directly. -/
def binding? (s : Solution) (x : String) : Option Term := s.bindings.get? x

/-- The full value of a variable, itself if it is unbound; a fault if the bindings are cyclic. -/
def resolved (s : Solution) (x : String) : Except Fault Term :=
  match s.bindings.value? x with
  | some t => .ok t
  | none => .error .endless

/-- The full values of the query variables. -/
def values (s : Solution) : Except Fault (List (String × Term)) :=
  s.vars.eraseDups.mapM fun x => do return (x, ← s.resolved x)

/-- The texts of the values of the query variables. -/
def render (s : Solution) : Except Fault (List (String × String)) := do
  (← s.values).mapM fun (x, t) => do return (x, ← t.write)

end Solution

/-! ## Reports of a search -/

namespace Search.Event

def record : Event → Log.Record
  | resolving depth goal =>
    { logger := Log.evaluatorLogger
      level := Log.debug
      message := "[" ++ toString depth ++ "] " ++ goal.text }
  | tooDeep limit goals =>
    { logger := Log.evaluatorLogger
      level := Log.error
      message := "Maximum search depth " ++ toString limit ++ " exceeded while solving " ++
        String.ofList (Goal.charsList goals) }
  | solved goals solutions stats =>
    { logger := Log.evaluatorLogger
      level := Log.debug
      message := "Solved " ++ toString goals ++ " goal(s): " ++ toString solutions ++
        " solution(s), " ++ toString stats.inferences ++ " inferences, " ++
        toString stats.ruleApplications ++ " rule applications, depth " ++ toString stats.maxDepth }

end Search.Event

open Search

/-- A knowledge base, the parameters of searches in it, and the progress of the last one. -/
structure Evaluator where
  kb : KnowledgeBase := {}
  options : Options := {}
  progress : Progress := {}

namespace Evaluator

/-- The result of a call, and the evaluator afterwards. -/
abbrev Answer (α : Type) := Except Fault α × Evaluator

/-- Searches for some or all proofs from a state by a strategy. -/
def search (ev : Evaluator) (wanted : Option Nat) (strategy : Strategy) (s : State) :
    Answer (List Bindings) :=
  let report := Search.search ⟨ev.kb, ev.options, wanted⟩ strategy s ev.progress
  (report.outcome, { ev with progress := report.progress })

/-- The evaluator with all counts at zero. -/
def reset (ev : Evaluator) : Evaluator := { ev with progress := {} }

/-- Finds every proof of the goals, in search order. -/
def solve (ev : Evaluator) (goals : List Goal) (b : Bindings) : Answer (List Bindings) :=
  match ev.reset.search none ev.options.strategy ⟨goals, b, 0⟩ with
  | (.error e, ev) => (.error e, ev)
  | (.ok results, ev) =>
    let event := .solved goals.length results.length ev.progress.stats
    (.ok results, { ev with progress := ev.progress.report event })

/-- Finds every proof of the goals and looks at the variables of the goals in each. -/
def query (ev : Evaluator) (goals : List Goal) : Answer (List Solution) :=
  let (results, ev) := ev.solve goals ∅
  (results.map (·.map (⟨·, Solution.variablesOf goals⟩)), ev)

/-- Whether the goals have a proof; the search stops at the first one. -/
def ask (ev : Evaluator) (goals : List Goal) : Answer Bool :=
  let (results, ev) := ev.reset.search (some 1) ev.options.strategy ⟨goals, ∅, 0⟩
  (results.map (!·.isEmpty), ev)

/-- Finds every proof from a state by a given strategy, and goes on counting. Searches for negated
goals follow the strategy of the evaluator. -/
def solveGoals (ev : Evaluator) (strategy : Strategy) (goals : List Goal) (b : Bindings)
    (depth : Nat) : Answer (List Bindings) :=
  ev.search none strategy ⟨goals, b, depth⟩

/-- Binds what only one fact can satisfy. -/
def propagate (ev : Evaluator) (goals : List Goal) (b : Bindings) :
    Except Fault (Option Bindings) :=
  Search.propagate ev.kb ev.options.unifier goals b

/-- The place of the goal that the constrained strategy takes next. -/
def selectIndex (ev : Evaluator) (goals : List Goal) (b : Bindings) : Except Fault Nat :=
  match selectIndex? ev.kb goals b with
  | some i => .ok i
  | none => .error .endless

/-- A copy of a rule with variables of its own, for a use at the given depth. -/
def renameRule (ev : Evaluator) (r : Rule) (depth : Nat) : Rule × Evaluator :=
  let (r, p) := copyRule ev.options.mode depth r ev.progress
  (r, { ev with progress := p })

def withKb (ev : Evaluator) (kb : KnowledgeBase) : Evaluator := { ev with kb }

/-- Takes the records of the events since the last time, oldest first. -/
def takeRecords (ev : Evaluator) : List Log.Record × Evaluator :=
  (ev.progress.events.reverse.map Event.record,
    { ev with progress := { ev.progress with events := [] } })

end Evaluator

end Clausal
