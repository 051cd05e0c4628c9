import Clausal.Data.Basic
import Clausal.Fault
import Clausal.Log.Record
import Clausal.Search.Options

/-!
# Settings

Settings come from plain data. The strategy, the renaming mode and the depth limit of queries are
checked; all other values are kept as they are and used by their truth. Settings that are built
directly also have their log level checked; those that are read from data do not.
-/

namespace Clausal

namespace Limit

def toData : Limit → Data
  | .whole n => .int n
  | .fraction x => .float x
  | .flag b => .bool b

/-- The limit that data stand for; it is a number that is not negative. -/
def ofData : Data → Except Fault Limit
  | .int n => if n < 0 then .error (.settings .negativeDepth) else .ok (.whole n.toNat)
  | .float x => if x < 0.0 then .error (.settings .negativeDepth) else .ok (.fraction x)
  | .bool b => .ok (.flag b)
  | _ => .error (.settings .shape)

end Limit

def Strategy.ofData (d : Data) : Except Fault Strategy :=
  let found :=
    match d with
    | .str s => Strategy.ofName? s
    | _ => none
  match found with
  | some s => .ok s
  | none => .error (.settings (.strategy d.shown))

def RenamingMode.ofData (d : Data) : Except Fault RenamingMode :=
  let found :=
    match d with
    | .str s => RenamingMode.ofName? s
    | _ => none
  match found with
  | some m => .ok m
  | none => .error (.settings (.renamingMode d.shown))

namespace Settings

/-- Named values with the given names, of which the others are absent. -/
abbrev Fields := List (String × Data)

/-- Refuses fields that are not among the known ones. -/
def checkNames (known : List String) (fields : Fields) : Except Fault Unit :=
  if fields.all (known.contains ·.1) then .ok () else .error (.settings .shape)

/-- A field, or its default. -/
def fieldOr (fields : Fields) (name : String) (missing : Data) : Data :=
  (Data.get? fields name).getD missing

/-- How queries are evaluated. -/
structure Query where
  maxDepth : Limit := Limit.default
  strategy : Strategy := .constrained
  mode : RenamingMode := .application
  occursCheck : Data := .bool true
  traceEnabled : Data := .bool false

/-- How clauses are validated. -/
structure Validation where
  strict : Data := .bool false
  warnSingletons : Data := .bool true

/-- Whether logic is enabled at all. -/
structure Session where
  enableLogic : Data := .bool true

namespace Query

/-- The settings with the given fields. -/
def ofFields (fields : Fields) : Except Fault Query := do
  checkNames ["max_depth", "strategy", "renaming", "occurs_check", "trace_enabled"] fields
  let strategy ← Strategy.ofData (fieldOr fields "strategy" (.str "constrained"))
  let mode ← RenamingMode.ofData (fieldOr fields "renaming" (.str "application"))
  let maxDepth ← Limit.ofData (fieldOr fields "max_depth" Limit.default.toData)
  return {
    maxDepth, strategy, mode
    occursCheck := fieldOr fields "occurs_check" (.bool true)
    traceEnabled := fieldOr fields "trace_enabled" (.bool false) }

/-- The settings as fields. -/
def toFields (q : Query) : Fields :=
  [("max_depth", q.maxDepth.toData),
   ("strategy", .str q.strategy.name),
   ("renaming", .str q.mode.name),
   ("occurs_check", q.occursCheck),
   ("trace_enabled", q.traceEnabled)]

/-- The parameters of searches. -/
def options (q : Query) : Search.Options where
  limit := q.maxDepth
  strategy := q.strategy
  mode := q.mode
  unifier := ⟨q.occursCheck.isTrue⟩
  trace := q.traceEnabled.isTrue

end Query

namespace Validation

def ofFields (fields : Fields) : Except Fault Validation := do
  checkNames ["strict", "warn_singletons"] fields
  return {
    strict := fieldOr fields "strict" (.bool false)
    warnSingletons := fieldOr fields "warn_singletons" (.bool true) }

def toFields (v : Validation) : Fields :=
  [("strict", v.strict), ("warn_singletons", v.warnSingletons)]

end Validation

namespace Session

def ofFields (fields : Fields) : Except Fault Session := do
  checkNames ["enable_logic"] fields
  return { enableLogic := fieldOr fields "enable_logic" (.bool true) }

def toFields (s : Session) : Fields := [("enable_logic", s.enableLogic)]

end Session

end Settings

structure Settings where
  query : Settings.Query := {}
  validation : Settings.Validation := {}
  session : Settings.Session := {}
  logLevel : Data := .str "WARNING"
  logFile : Data := .null

namespace Settings

instance : Inhabited Settings := ⟨{}⟩

/-- The settings as an ordered map. -/
def toFields (s : Settings) : Fields :=
  [("query", .map s.query.toFields),
   ("validation", .map s.validation.toFields),
   ("runtime", .map s.session.toFields),
   ("log_level", s.logLevel),
   ("log_file", s.logFile)]

def same (s t : Settings) : Bool := (Data.map s.toFields).same (.map t.toFields)

/-- A section of settings: absent, or a map whose fields are read. -/
def readSection {α : Type} (fields : Fields) (name : String) (missing : α)
    (read : Fields → Except Fault α) : Except Fault α :=
  match Data.get? fields name with
  | none => .ok missing
  | some (.map body) => read body
  | some _ => .error (.settings .shape)

/-- The settings that a map describes. Sections and values that are absent keep their defaults, and
unknown names are ignored. -/
def ofFields (fields : Fields) : Except Fault Settings := do
  let query ← readSection fields "query" {} Query.ofFields
  let validation ← readSection fields "validation" {} Validation.ofFields
  let session ← readSection fields "runtime" {} Session.ofFields
  return {
    query, validation, session
    logLevel := fieldOr fields "log_level" (.str "WARNING")
    logFile := fieldOr fields "log_file" .null }

def names : List String := ["query", "validation", "runtime", "log_level", "log_file"]

def occursIn (word : List Char) : List Char → Bool
  | [] => word.isEmpty
  | c :: cs => word.isPrefixOf (c :: cs) || occursIn word cs

/-- The settings that data describe. A list or a text describes none, unless it holds the name of a
section or value, which cannot be looked up in it. -/
def ofData : Data → Except Fault Settings
  | .map fields => ofFields fields
  | .list items =>
    let named := items.any fun
      | .str s => names.contains s
      | _ => false
    if named then .error (.settings .shape) else .ok {}
  | .str s =>
    if names.any fun n => occursIn n.toList s.toList then .error (.settings .shape) else .ok {}
  | _ => .error (.settings .shape)

/-- The names of log levels that settings may be built with. -/
def levelNames : List String := ["DEBUG", "INFO", "WARNING", "ERROR", "CRITICAL"]

/-- Checks a log level in settings that are built directly. -/
def checkLevel : Data → Except Fault Unit
  | .str s =>
    if levelNames.contains (Log.upperName s) then .ok ()
    else .error (.settings (.level (Text.quoted s)))
  | _ => .error (.settings .noLevel)

/-- Settings built from values. Sections are not plain values, so settings with one given as such
have no fields. -/
def build (fields : Fields) : Except Fault Settings := do
  checkNames names fields
  let logLevel := fieldOr fields "log_level" (.str "WARNING")
  checkLevel logLevel
  if fields.any fun f => ["query", "validation", "runtime"].contains f.1 then
    .error (.settings .shape)
  else return { logLevel, logFile := fieldOr fields "log_file" .null }

end Settings

end Clausal
