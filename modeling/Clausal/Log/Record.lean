import Clausal.Data.Json
import Clausal.Fault
import Clausal.Log.Moment

/-!
# Log records

A record names the logger that wrote it, its level and its message. It may carry further fields for
structured logs, and the place in a program from which it was written.
-/

namespace Clausal.Log

/-- A log level; larger ones are more severe. -/
abbrev Level := Int

def debug : Level := 10

def info : Level := 20

def warning : Level := 30

def error : Level := 40

def critical : Level := 50

def levelName : Level → String
  | 0 => "NOTSET"
  | 10 => "DEBUG"
  | 20 => "INFO"
  | 30 => "WARNING"
  | 40 => "ERROR"
  | 50 => "CRITICAL"
  | n => "Level " ++ toString n

/-- The upper-case form of a letter as far as it is a basic Latin one. -/
def upperLetter (c : Char) : Char :=
  if c == 'ı' then 'I' else if c == 'ſ' then 'S' else c.toUpper

def upperName (s : String) : String :=
  String.ofList (s.toList.map upperLetter)

/-- The level of a name in any case. -/
def levelOf? (name : String) : Option Level :=
  match upperName name with
  | "NOTSET" => some 0
  | "DEBUG" => some 10
  | "INFO" => some 20
  | "WARN" | "WARNING" => some 30
  | "ERROR" => some 40
  | "CRITICAL" | "FATAL" => some 50
  | _ => none

/-- Where in a program a record was written. -/
structure Origin where
  module : String := "m"
  function : Option String := some "f"
  line : Int := 0

structure Record where
  logger : String
  level : Level
  message : String
  extra : Option (List (String × Data)) := none
  created : Moment := 0
  origin : Origin := {}
  exception : Option String := none

def engineLogger : String := "hornlog.engine"

def sessionLogger : String := "hornlog.runtime"

def evaluatorLogger : String := "hornlog.evaluator"

/-!
## Messages with arguments

A message may leave places for arguments: `%s` for any value, `%d` for a whole number, and `%%` for
the percent sign itself. Without arguments a message stands for itself.
-/

/-- A value in a place for any value: texts as they are. -/
def plainText : Data → String
  | .str s => s
  | d => d.shown

/-- A value in a place for a whole number; a fraction is dropped. -/
def wholeText : Data → Except Fault String
  | .int n => .ok (toString n)
  | .bool b => .ok (if b then "1" else "0")
  | .float x =>
    match Decimal.view x with
    | .finite p => .ok (toString p.truncate)
    | .infinite _ => .error (.conversion .infinityToInteger)
    | .nan => .error (.conversion .nanToInteger)
  | _ => .error (.log .arguments)

/-- Whether arguments may be left over. A single map is looked up by name and need not be used. -/
def mayRemain : List Data → Bool
  | [.map (_ :: _)] => true
  | _ => false

/-- Fills the places of a message in order. -/
def fill (lenient : Bool) : List Char → List Data → Except Fault String
  | [], args => if lenient || args.isEmpty then .ok "" else .error (.log .arguments)
  | '%' :: '%' :: cs, args => do return "%" ++ (← fill lenient cs args)
  | '%' :: 's' :: cs, d :: args => do return plainText d ++ (← fill lenient cs args)
  | '%' :: 'd' :: cs, d :: args => do
    let n ← wholeText d
    return n ++ (← fill lenient cs args)
  | '%' :: _, _ => .error (.log .arguments)
  | c :: cs, args => do return String.singleton c ++ (← fill lenient cs args)

/-- A message with its arguments. -/
def message (template : String) (args : List Data) : Except Fault String :=
  if args.isEmpty then .ok template else fill (mayRemain args) template.toList args

/-!
## Events

Queries and changes of clauses are events: their records carry the details in fields of their own,
and can be told from other records by these fields.
-/

namespace Record

/-- The record of a query with its number of solutions and its time in milliseconds. -/
def queryRun (logger : String) (level : Level) (query : String) (solutions : Int) (ms : Float) :
    Record where
  logger
  level
  message := "Query executed: " ++ query ++ " (" ++ toString solutions ++ " solution(s), " ++
    Decimal.twoPlaces ms ++ " ms)"
  extra := some
    [("event_type", .str "query_performance"),
     ("query", .str query),
     ("solution_count", .int solutions),
     ("execution_time_ms", .float ms)]

def clauseChange (logger action clause : String) : Record where
  logger
  level := Log.debug
  message := action ++ ": " ++ clause
  extra := some
    [("event_type", .str "clause_change"),
     ("action", .str action),
     ("clause", .str clause)]

def eventTypes : List String := ["query_performance", "clause_change"]

def isEvent (r : Record) : Bool :=
  match Data.get? (r.extra.getD []) "event_type" with
  | some (.str kind) => eventTypes.contains kind
  | _ => false

end Record

/-!
## Layouts of log records

A record is written as a line of text, or as a JSON object in which further fields follow the common
ones or take their places.
-/

inductive Layout where
  | line
  | structured
deriving DecidableEq

/-- The name of a module by the path of its file: the file name without its last ending. Points at
the start of a file name are part of the name. -/
def moduleOf (path : String) : String :=
  let name := (path.toList.reverse.takeWhile (· != '/')).reverse
  let stem := ((name.reverse.dropWhile (· != '.')).drop 1).reverse
  String.ofList (if stem.any (· != '.') then stem else name)

/-- How a failure is reported: its kind, and its message if it has one. -/
def failureText (kind message : String) : String :=
  if message.isEmpty then kind else kind ++ ": " ++ message

namespace Record

/-- The common fields of a record. -/
def fields (r : Record) : List (String × Data) :=
  [("timestamp", .str r.created.stamp),
   ("level", .str (levelName r.level)),
   ("logger", .str r.logger),
   ("message", .str r.message),
   ("module", .str r.origin.module),
   ("function", r.origin.function.elim .null .str),
   ("line", .int r.origin.line)] ++
  (match r.exception with
    | some e => [("exception", .str e)]
    | none => [])

/-- All fields of a record. -/
def allFields (r : Record) : List (String × Data) :=
  (r.extra.getD []).foldl (fun es e => Data.set es e.1 e.2) r.fields

/-- A record as a line of text. -/
def line (r : Record) : String :=
  " - ".intercalate [r.created.lineStamp, r.logger, levelName r.level, r.message]

def write (r : Record) : Layout → String
  | .line => r.line
  | .structured => (Data.map r.allFields).json

end Record

end Clausal.Log
