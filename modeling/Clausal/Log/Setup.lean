import Clausal.Log.Record

/-!
# Setting up logs

Records go to the console and, if wanted, to two files: one for all records, and one for the events,
which is always structured and takes all levels.
-/

namespace Clausal.Log

/-!
## Levels of loggers

Loggers have names with points, and a logger whose level is not set has the level of the nearest
logger above it whose level is set. A record passes if its level is at least that of its logger.
-/

/-- The levels that are set, and the level of all other loggers. Level zero counts as not set. -/
structure Levels where
  base : Level := 0
  components : List (String × Level) := []

namespace Levels

/-- The level set for a logger; zero if none is. -/
def get (l : Levels) (logger : String) : Level :=
  (l.components.lookup logger).getD 0

/-- The names that the parts of a name make, given from the last part on, and those above it. -/
def namesAbove : List String → List String
  | [] => []
  | part :: parts => ".".intercalate (part :: parts).reverse :: namesAbove parts

/-- The names of a logger and of those above it, the nearest first. -/
def ancestors (logger : String) : List String :=
  namesAbove (logger.splitOn ".").reverse

def effective (l : Levels) (logger : String) : Level :=
  match (ancestors logger).map l.get |>.find? (· != 0) with
  | some level => level
  | none => l.base

/-- Whether a record passes its logger. Only positive levels do. -/
def passes (l : Levels) (r : Record) : Bool :=
  decide (0 < r.level) && decide (l.effective r.logger ≤ r.level)

/-- Sets the levels of all parts of the program. Searches are only reported in detail at the level
for developers. -/
def setComponents (l : Levels) (level : Level) : Levels :=
  { l with components :=
    [(engineLogger, level),
     (sessionLogger, level),
     (evaluatorLogger, if level ≤ debug then level else warning)] }

end Levels

/-! ## Handlers -/

inductive Target where
  | console
  | file (name : String)
deriving DecidableEq

/-- A target with what was written to it. It takes records of at least its level, or only events. -/
structure Handler where
  target : Target
  level : Level
  layout : Layout
  eventsOnly : Bool := false
  text : String := ""

namespace Handler

def accepts (h : Handler) (r : Record) : Bool :=
  decide (h.level ≤ r.level) && (!h.eventsOnly || r.isEvent)

/-- Writes a record if the handler takes it. -/
def write (h : Handler) (r : Record) : Handler :=
  if h.accepts r then { h with text := h.text ++ r.write h.layout ++ "\n" } else h

end Handler

/-- Levels of loggers and the handlers of all records. -/
structure Setup where
  levels : Levels := {}
  handlers : List Handler := []

namespace Setup

def recordsFile : String := "hornlog.log"

def eventsFile : String := "hornlog_queries.log"

/-- Logs at a level, in a layout, with or without files. -/
def ofLevel (level : Level) (layout : Layout) (files : Bool) : Setup where
  levels := Levels.setComponents { base := level } level
  handlers :=
    { target := .console, level, layout } ::
    (if files then
      [{ target := .file recordsFile, level, layout },
       { target := .file eventsFile, level := debug, layout := .structured, eventsOnly := true }]
    else [])

/-- Logs at the level of a name. -/
def ofName (name : String) (layout : Layout) (files : Bool) : Except Fault Setup :=
  match levelOf? name with
  | some level => .ok (ofLevel level layout files)
  | none => .error (.settings .noLevel)

/-- Passes a record on to the handlers. -/
def log (s : Setup) (r : Record) : Setup :=
  if s.levels.passes r then { s with handlers := s.handlers.map (·.write r) } else s

def console (s : Setup) : String :=
  String.join ((s.handlers.filter (·.target = .console)).map (·.text))

/-- The files with what was written to them. -/
def files (s : Setup) : List (String × String) :=
  s.handlers.filterMap fun h =>
    match h.target with
    | .file name => some (name, h.text)
    | .console => none

end Setup

end Clausal.Log
