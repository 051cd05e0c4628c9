import Clausal.Grammar.Parser
import Clausal.Log.Record
import Clausal.Search.Evaluator
import Clausal.Settings.Basic
import Clausal.Validation

/-!
# The engine

An engine is a knowledge base with an evaluator. Clauses are validated when they are added: in
strict mode those that fail are refused, otherwise they are accepted with a warning. Every action
leaves records in the log of the engine, also when it fails.
-/

namespace Clausal

/-- A knowledge base with its evaluator, the number of queries so far, and the records that have not
been taken from its log, newest first. -/
structure Engine where
  settings : Settings := {}
  evaluator : Evaluator := {}
  queries : Nat := 0
  initialized : Bool := false
  debug : Bool := false
  log : List Log.Record := []

namespace Engine

/-- An action on an engine. A fault keeps what was done before it. -/
abbrev Action := ExceptT Fault (StateM Engine)

def ofSettings (s : Settings) : Engine :=
  { settings := s, evaluator := { options := s.query.options } }

def kb (e : Engine) : KnowledgeBase := e.evaluator.kb

def limit (e : Engine) : Limit := e.evaluator.options.limit

def withKb (e : Engine) (kb : KnowledgeBase) : Engine :=
  { e with evaluator := e.evaluator.withKb kb }

def text (e : Engine) : String :=
  "LogicEngine: " ++ toString e.kb.factsCount ++ " facts, " ++ toString e.kb.rulesCount ++ " rules"

/-- Takes the records from the log, oldest first. -/
def takeLog (e : Engine) : List Log.Record × Engine :=
  (e.log.reverse, { e with log := [] })

def updateKb (f : KnowledgeBase → KnowledgeBase) : Action Unit :=
  modify fun e => e.withKb (f e.kb)

def write (r : Log.Record) : Action Unit :=
  modify fun e => { e with log := r :: e.log }

def say (level : Log.Level) (message : String) : Action Unit :=
  write { logger := Log.engineLogger, level, message }

/-- Writes a record about a change of clauses. -/
def sayChange (action clause : String) : Action Unit :=
  write (.clauseChange Log.engineLogger action clause)

/-- Writes a record about the first start. A limit that is infinite or not a number
cannot be shown. -/
def sayStart (e : Engine) : Action Unit :=
  match e.initialized, e.limit.floor with
  | false, some limit =>
    say Log.info ("Logic engine initialized (max_depth=" ++ toString limit ++ ", strategy=" ++
      e.evaluator.options.strategy.name ++ ")")
  | _, _ => pure ()

/-- Registers the built-in predicates. -/
def startUp : Action Unit := do
  updateKb fun kb => Builtin.names.foldl (fun kb name => kb.register name Builtin.arity) kb
  sayStart (← get)
  modify ({ · with initialized := true })

/-- Drops all clauses and signatures. -/
def shutdown : Action Unit := do
  updateKb fun _ => .empty
  modify ({ · with initialized := false })
  say Log.info "Logic engine shut down"

def register (predicate : String) (arity : Nat) : Action Unit := do
  let e ← get
  unless e.kb.arityOf? predicate = some arity do
    say Log.debug ("Registered predicate " ++ predicate ++ "/" ++ toString arity)
  updateKb (·.register predicate arity)

/-- Acts on a verdict about a clause: warnings are passed on, and a failure is refused in strict
mode and otherwise reported. `shown` is the text of the clause, if it has one. -/
def check (v : Verdict) (shown : Except Fault String) (clause : String) : Action Unit := do
  if let some warning := v.warning then
    say Log.warning (clause ++ ": " ++ warning)
  if let some reason := v.error then
    let e ← get
    if e.settings.validation.strict.isTrue then
      let shown ← shown
      throw (.invalidClause (reason ++ ": " ++ shown))
    say Log.warning ("Accepting " ++ clause ++ " despite: " ++ reason)

/-- Whether rules with variables that occur only once are reported. -/
def warnsOfSingletons (e : Engine) : Bool := e.settings.validation.warnSingletons.isTrue

def addFact (f : Fact) : Action Unit := do
  let e ← get
  let verdict ← Validation.fact (some e.kb.signatures) f
  check verdict f.write f.text
  updateKb (·.addFact f)
  register f.predicate f.arity
  sayChange "Asserted fact" (← f.write)

/-- Removes every stored copy of a fact and tells how many there were. -/
def removeFact (f : Fact) : Action Nat := do
  let removed := (← get).kb.countFact f
  updateKb (·.removeFact f)
  sayChange ("Retracted " ++ toString removed ++ " fact(s)") (← f.write)
  return removed

def addRule (r : Rule) : Action Unit := do
  let e ← get
  let verdict := Validation.rule (some e.kb.signatures) e.warnsOfSingletons r
  check verdict r.write r.text
  updateKb (·.addRule r)
  register r.predicate r.head.arity
  sayChange "Added rule" (← r.write)

def assertFact (text : String) : Action Unit := do addFact (← Fact.parse text)

/-- Reads and adds several facts, up to the first bad one. -/
def assertFacts (texts : List String) : Action Unit := texts.forM assertFact

/-- Reads a fact and removes every stored copy of it. -/
def retractFact (text : String) : Action Nat := do removeFact (← Fact.parse text)

def assertRule (text : String) : Action Unit := do addRule (← Rule.parse text)

/-- Reads a program and adds its facts and then its rules. -/
def consult (program : String) : Action Unit := do
  let clauses ← Clause.parseProgram program
  (Grammar.factsOf clauses).forM addFact
  (Grammar.rulesOf clauses).forM addRule

def countQuery : Action Unit := modify fun e => { e with queries := e.queries + 1 }

/-- Runs the evaluator and takes over its records. -/
def evaluate {α : Type} (call : Evaluator → Evaluator.Answer α) : Action α := do
  let e ← get
  let (result, ev) := call e.evaluator
  let (records, ev) := ev.takeRecords
  set { e with evaluator := ev, log := records.reverse ++ e.log }
  result

/-- A rendered solution in one line. -/
def solutionLine (values : List (String × String)) : String :=
  if values.isEmpty then "Yes" else ", ".intercalate (values.map fun (x, t) => x ++ " = " ++ t)

/-- Reports the solutions of a query one by one. -/
def saySolutions : Nat → List Solution → Action Unit
  | _, [] => return ()
  | i, s :: ss => do
    let values ← s.render
    say Log.info ("  " ++ toString i ++ ". " ++ solutionLine values)
    saySolutions (i + 1) ss

/-- Finds all solutions of goals and reports on them. No clock runs, so a query takes no time. -/
def runQuery (goals : List Goal) (text : String) : Action (List Solution) := do
  let solutions ← evaluate (·.query goals)
  let debug := (← get).debug
  write (.queryRun Log.engineLogger (if debug then Log.info else Log.debug) text solutions.length 0)
  if debug then saySolutions 1 solutions
  return solutions

def query (goals : List Goal) : Action (List Solution) := do
  countQuery
  runQuery goals (← Goal.writeList goals)

/-- Reads a query and renders all its solutions. -/
def solveQuery (text : String) : Action (List (List (String × String))) := do
  countQuery
  let goals ← Goal.parseQuery text
  let solutions ← runQuery goals text
  solutions.mapM fun s => s.render

/-- Reads a query and tells whether it has a solution. -/
def ask (text : String) : Action Bool := do
  countQuery
  let goals ← Goal.parseQuery text
  evaluate (·.ask goals)

/-- Turns reports about single solutions on or off. -/
def setDebug (value : Bool) : Action Unit := modify ({ · with debug := value })

/-- A small family: parents and grandparents. -/
def familyProgram : String :=
  "
        parent(john, mary).
        parent(john, tom).
        parent(mary, susan).
        grandparent(X, Z) :- parent(X, Y), parent(Y, Z).
    "

/-- An initialized engine with the small family. -/
def family : Engine :=
  let (_, e) := (do startUp; consult familyProgram : Action Unit).run.run (ofSettings {})
  { e with log := [] }

end Engine

end Clausal
