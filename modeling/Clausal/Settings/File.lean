import Clausal.Data.Yaml
import Clausal.Settings.Basic

/-!
# Settings files

Settings are kept in files, in block form if the name of the file ends in `.yaml` or `.yml` and in
JSON otherwise. Without a given file, the first one that exists among some places is read.
-/

namespace Clausal.Settings

def baseName (path : List Char) : List Char :=
  (path.reverse.takeWhile (· != '/')).reverse

/-- The ending of a file name from its last point on, if something stands before and behind it. -/
def ending (path : String) : String :=
  let name := baseName path.toList
  let tail := (name.reverse.takeWhile (· != '.')).reverse
  if tail.length + 1 < name.length && !tail.isEmpty then String.ofList ('.' :: tail) else ""

/-- Whether a file holds settings in block form. -/
def isBlockFile (path : String) : Bool :=
  [".yaml", ".yml"].contains (ending path)

def readData (path text : String) : Except Fault Data :=
  if isBlockFile path then
    match Data.ofYaml? text with
    | some d => .ok d
    | none => .error (.settings .yaml)
  else
    match Data.ofJson? text with
    | some d => .ok d
    | none => .error (.settings .json)

/-- The settings in a file. What counts as false stands for no settings. -/
def read (path text : String) : Except Fault Settings := do
  let d ← readData path text
  if d.isTrue then ofData d else return {}

def write (s : Settings) (path : String) : String :=
  if isBlockFile path then Data.yaml s.toFields else Data.jsonLines 0 (.map s.toFields)

/-- The places where settings are looked for, in order: those in the home directory come first. -/
def searchPaths : List String :=
  ["home/.hornlog/config.yaml",
   "home/.hornlog/config.yml",
   "home/.hornlog/config.json",
   "cwd/hornlog_config.yaml",
   "cwd/hornlog_config.yml",
   "cwd/hornlog_config.json"]

/-- Reads the first file that exists among the places; the defaults if there is none. Of two texts
for one file, the later one counts. -/
def load (files : List (String × String)) : Except Fault Settings :=
  match searchPaths.findSome? fun p => (files.reverse.lookup p).map fun text => (p, text) with
  | some (path, text) => read path text
  | none => .ok {}

end Clausal.Settings
