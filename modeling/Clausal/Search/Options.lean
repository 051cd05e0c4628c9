import Clausal.KnowledgeBase
import Clausal.Limit
import Clausal.Unify.Basic

/-!
# How to search

A search resolves goals against a knowledge base. The strategy decides which goal comes
next, the renaming mode decides what the variables of clause copies are called, and the
limit bounds the depth.
-/

namespace Clausal

/-- Which goal is resolved next. -/
inductive Strategy where
  /-- Strictly from left to right. -/
  | baseline
  /-- The most constrained goal that is ready, after binding what only one fact can satisfy. -/
  | constrained
deriving DecidableEq

namespace Strategy

def ofName? : String → Option Strategy
  | "baseline" => some .baseline
  | "constrained" => some .constrained
  | _ => none

def name : Strategy → String
  | .baseline => "baseline"
  | .constrained => "constrained"

end Strategy

/-- What the suffix of the variables of a clause copy counts. -/
inductive RenamingMode where
  /-- The uses of clauses so far. -/
  | application
  /-- The depth of the state that uses the clause. -/
  | depth
deriving DecidableEq

namespace RenamingMode

def ofName? : String → Option RenamingMode
  | "application" => some .application
  | "depth" => some .depth
  | _ => none

def name : RenamingMode → String
  | .application => "application"
  | .depth => "depth"

end RenamingMode

namespace Search

structure Options where
  limit : Limit := Limit.default
  strategy : Strategy := .constrained
  mode : RenamingMode := .application
  unifier : Unifier := {}
  trace : Bool := false

/-- Goals that are left, under bindings, after a number of resolution steps. -/
structure State where
  goals : List Goal
  bindings : Bindings
  depth : Nat

/-- Counts of what a search did. -/
structure Stats where
  inferences : Nat := 0
  ruleApplications : Nat := 0
  maxDepth : Nat := 0
  pruned : Nat := 0
deriving DecidableEq

/-- What a search reports while it runs. -/
inductive Event where
  | resolving (depth : Nat) (goal : Goal)
  | tooDeep (limit : Nat) (goals : List Goal)
  | solved (goals solutions : Nat) (stats : Stats)

/-- What a search carries from state to state: the number of clause copies made, the counts, and the
events, newest first. -/
structure Progress where
  applications : Nat := 0
  stats : Stats := {}
  events : List Event := []

namespace Progress

/-- Notes that a state of the given depth is visited. -/
def visit (p : Progress) (depth : Nat) : Progress :=
  { p with stats := { p.stats with maxDepth := max p.stats.maxDepth depth } }

/-- Counts a state whose goals are worked on. -/
def infer (p : Progress) : Progress :=
  { p with stats := { p.stats with inferences := p.stats.inferences + 1 } }

/-- Counts a state whose goals cannot all be satisfied. -/
def prune (p : Progress) : Progress :=
  { p with stats := { p.stats with pruned := p.stats.pruned + 1 } }

/-- Counts the use of a rule. -/
def applyRule (p : Progress) : Progress :=
  { p with stats := { p.stats with ruleApplications := p.stats.ruleApplications + 1 } }

def report (p : Progress) (e : Event) : Progress :=
  { p with events := e :: p.events }

/-- The suffix for a clause copy that is made at the given depth. -/
def nextSuffix (mode : RenamingMode) (depth : Nat) (p : Progress) : String × Progress :=
  match mode with
  | .depth => (toString depth, p)
  | .application => (toString (p.applications + 1), { p with applications := p.applications + 1 })

end Progress

end Search

end Clausal
