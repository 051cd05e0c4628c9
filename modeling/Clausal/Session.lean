import Clausal.Engine
import Clausal.Log.Record
import Clausal.Log.Setup

/-!
# Sessions

A session owns an engine from its start to its end. It sets the levels of the loggers by its
settings and keeps a log file while it runs. Logic can be disabled altogether, and must be started
before it is used.
-/

namespace Clausal

/-- An engine with the settings of its session, the levels of the loggers, the level of the open log
file, the lines written to it if there ever was one, and the records that passed their loggers and
have not been taken, newest first. -/
structure Session where
  settings : Settings := {}
  engine : Engine := {}
  initialized : Bool := false
  levels : Log.Levels := {}
  handler : Option Log.Level := none
  file : Option (List String) := none
  log : List Log.Record := []

namespace Session

/-- An action on a session. A fault keeps what was done before it. -/
abbrev Action := ExceptT Fault (StateM Session)

/-- The session of an engine. Loggers without a level of their own have the given one. -/
def ofEngine (s : Settings) (e : Engine) (base : Log.Level) : Session :=
  { settings := s, engine := e, levels := { base } }

def enabled (s : Session) : Bool := s.settings.session.enableLogic.isTrue

/-- Writes a record to the log file, if it is open for it. -/
def writeFile (s : Session) (r : Log.Record) : Session :=
  match s.handler with
  | some level => if level ≤ r.level then { s with file := s.file.map (· ++ [r.line]) } else s
  | none => s

/-- Passes a record on if it passes its logger. -/
def deliver (s : Session) (r : Log.Record) : Session :=
  if s.levels.passes r then { s.writeFile r with log := r :: s.log } else s

def takeLog (s : Session) : List Log.Record × Session :=
  (s.log.reverse, { s with log := [] })

/-- The text of the log file, if there ever was one. -/
def fileText? (s : Session) : Option String :=
  s.file.map fun lines => String.join (lines.map (· ++ "\n"))

/-- What a session tells about itself. -/
structure Stats where
  facts : Nat
  rules : Nat
  queries : Nat
  initialized : Bool

/-- The counts of the engine, and whether the session has started. -/
def stats (s : Session) : Stats :=
  { facts := s.engine.kb.factsCount
    rules := s.engine.kb.rulesCount
    queries := s.engine.queries
    initialized := s.initialized }

/-- Acts on the engine and passes its records on, also those before a fault. -/
def onEngine {α : Type} (action : Engine.Action α) : Action α := do
  let s ← get
  let (result, e) := action.run.run s.engine
  let (records, e) := e.takeLog
  set (records.foldl deliver { s with engine := e })
  result

def say (level : Log.Level) (message : String) : Action Unit :=
  modify (·.deliver { logger := Log.sessionLogger, level, message })

def levelOf (s : Settings) : Except Fault Log.Level :=
  let found :=
    match s.logLevel with
    | .str name => Log.levelOf? name
    | _ => none
  match found with
  | some level => .ok level
  | none => .error (.settings .noLevel)

/-- Sets the levels of the loggers and opens the log file, if the settings name one. -/
def openLog : Action Unit := do
  let s ← get
  if s.handler.isNone then
    let level ← levelOf s.settings
    modify fun s => { s with levels := s.levels.setComponents level }
    if s.settings.logFile.isTrue then
      match s.settings.logFile with
      | .str _ =>
        modify fun s => { s with handler := some level, file := some (s.file.getD []) }
      | _ => throw (.settings .shape)

def closeLog : Action Unit := modify ({ · with handler := none })

def startUp : Action Unit := do
  openLog
  let enabled := (← get).enabled
  if enabled then onEngine Engine.startUp
  modify ({ · with initialized := true })
  say Log.info
    ("Logic runtime initialized (logic " ++ (if enabled then "enabled" else "disabled") ++ ")")

def shutdown : Action Unit := do
  if (← get).enabled then onEngine Engine.shutdown
  modify ({ · with initialized := false })
  say Log.info "Logic runtime shut down"
  closeLog

/-- The feature that can be disabled. -/
def feature : String := "Logic programming"

/-- Refuses to go on unless logic is enabled and the session has started. -/
def ready : Action Unit := do
  let s ← get
  unless s.enabled do throw (.disabled feature)
  unless s.initialized do throw .notInitialized

/-- Acts on the engine of a session that is ready. -/
def act {α : Type} (action : Engine.Action α) : Action α := do
  ready
  onEngine action

def assertFact (text : String) : Action Unit := act (Engine.assertFact text)

def assertFacts (texts : List String) : Action Unit := act (Engine.assertFacts texts)

def retractFact (text : String) : Action Nat := act (Engine.retractFact text)

def assertRule (text : String) : Action Unit := act (Engine.assertRule text)

def consult (program : String) : Action Unit := act (Engine.consult program)

def solveQuery (text : String) : Action (List (List (String × String))) :=
  act (Engine.solveQuery text)

end Session

end Clausal
