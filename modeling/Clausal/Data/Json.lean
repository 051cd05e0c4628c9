import Clausal.Data.Basic
import Clausal.Decimal.Reading
import Clausal.Text.Quoted

/-!
# JSON texts

Data are written in JSON with escapes for all characters outside printable ASCII, on one line or
with an indentation of two blanks for each level. The reader accepts what the format allows, with
the names of the infinities and of what is not a number as further numbers; a repeated key keeps its
first place and its last value.
-/

namespace Clausal.Data

/-- A sixteen-bit unit as an escape. -/
def escapeUnit (n : Nat) : List Char :=
  '\\' :: 'u' :: Text.hexPadded 4 n

/-- A character inside a JSON string. Characters beyond sixteen bits are written as two units. -/
def escapeJson (c : Char) : List Char :=
  if c == '"' then ['\\', '"']
  else if c == '\\' then ['\\', '\\']
  else if c == '\n' then ['\\', 'n']
  else if c == '\r' then ['\\', 'r']
  else if c == '\t' then ['\\', 't']
  else if c == '\x08' then ['\\', 'b']
  else if c == '\x0c' then ['\\', 'f']
  else if 0x20 ≤ c.toNat && c.toNat ≤ 0x7e then [c]
  else if c.toNat ≤ 0xffff then escapeUnit c.toNat
  else
    let n := c.toNat - 0x10000
    escapeUnit (0xd800 + n / 0x400) ++ escapeUnit (0xdc00 + n % 0x400)

def jsonString (s : String) : String :=
  String.ofList ('"' :: s.toList.flatMap escapeJson ++ ['"'])

def jsonFloat (x : Float) : String :=
  match Decimal.view x with
  | .nan => "NaN"
  | .infinite negative => if negative then "-Infinity" else "Infinity"
  | .finite _ => Decimal.floatText x

mutual

/-- Data as JSON on one line. -/
def json : Data → String
  | .null => "null"
  | .bool b => if b then "true" else "false"
  | .int n => toString n
  | .float x => jsonFloat x
  | .str s => jsonString s
  | .list items => "[" ++ jsonItems items ++ "]"
  | .map entries => "\x7b" ++ jsonEntries entries ++ "\x7d"

def jsonItems : List Data → String
  | [] => ""
  | [d] => d.json
  | d :: ds => d.json ++ ", " ++ jsonItems ds

def jsonEntries : List (String × Data) → String
  | [] => ""
  | [(k, d)] => jsonString k ++ ": " ++ d.json
  | (k, d) :: es => jsonString k ++ ": " ++ d.json ++ ", " ++ jsonEntries es

end

/-- A new line with the indentation of a level. -/
def lineAt (level : Nat) : String :=
  "\n" ++ String.ofList (List.replicate (2 * level) ' ')

mutual

/-- Data as JSON over several lines, at a level of indentation. -/
def jsonLines (level : Nat) : Data → String
  | .null => "null"
  | .bool b => if b then "true" else "false"
  | .int n => toString n
  | .float x => jsonFloat x
  | .str s => jsonString s
  | .list [] => "[]"
  | .list (d :: ds) => "[" ++ jsonItemLines (level + 1) (d :: ds) ++ lineAt level ++ "]"
  | .map [] => "\x7b\x7d"
  | .map (e :: es) => "\x7b" ++ jsonEntryLines (level + 1) (e :: es) ++ lineAt level ++ "\x7d"

def jsonItemLines (level : Nat) : List Data → String
  | [] => ""
  | [d] => lineAt level ++ jsonLines level d
  | d :: ds => lineAt level ++ jsonLines level d ++ "," ++ jsonItemLines level ds

def jsonEntryLines (level : Nat) : List (String × Data) → String
  | [] => ""
  | [(k, d)] => lineAt level ++ jsonString k ++ ": " ++ jsonLines level d
  | (k, d) :: es =>
    lineAt level ++ jsonString k ++ ": " ++ jsonLines level d ++ "," ++ jsonEntryLines level es

end

/-! ## Reading -/

/-- Drops the blanks that may stand between JSON tokens. -/
def skipJsonBlanks (cs : List Char) : List Char :=
  cs.dropWhile fun c => c == ' ' || c == '\t' || c == '\n' || c == '\r'

def hexValue? (c : Char) : Option Nat :=
  if '0' ≤ c && c ≤ '9' then some (c.toNat - '0'.toNat)
  else if 'a' ≤ c && c ≤ 'f' then some (c.toNat - 'a'.toNat + 10)
  else if 'A' ≤ c && c ≤ 'F' then some (c.toNat - 'A'.toNat + 10)
  else none

/-- The unit that four hexadecimal digits write, with the rest. -/
def readUnit? : List Char → Option (Nat × List Char)
  | a :: b :: c :: d :: cs => do
    let a ← hexValue? a
    let b ← hexValue? b
    let c ← hexValue? c
    let d ← hexValue? d
    return (((a * 16 + b) * 16 + c) * 16 + d, cs)
  | _ => none

/-- The character of an escape after its backslash, with the rest. Two units that belong together
make one character. -/
def readEscape? : List Char → Option (Char × List Char)
  | '"' :: cs => some ('"', cs)
  | '\\' :: cs => some ('\\', cs)
  | '/' :: cs => some ('/', cs)
  | 'b' :: cs => some ('\x08', cs)
  | 'f' :: cs => some ('\x0c', cs)
  | 'n' :: cs => some ('\n', cs)
  | 'r' :: cs => some ('\r', cs)
  | 't' :: cs => some ('\t', cs)
  | 'u' :: cs => do
    let (high, rest) ← readUnit? cs
    if 0xd800 ≤ high && high < 0xdc00 then
      match rest with
      | '\\' :: 'u' :: more =>
        match readUnit? more with
        | some (low, more) =>
          if 0xdc00 ≤ low && low < 0xe000 then
            return (Char.ofNat (0x10000 + (high - 0xd800) * 0x400 + (low - 0xdc00)), more)
          else return (Char.ofNat 0xfffd, rest)
        | none => return (Char.ofNat 0xfffd, rest)
      | _ => return (Char.ofNat 0xfffd, rest)
    else if 0xdc00 ≤ high && high < 0xe000 then return (Char.ofNat 0xfffd, rest)
    else return (Char.ofNat high, rest)
  | _ => none

/-- The characters of a JSON string after its opening quote, with the rest. -/
def readString? : Nat → List Char → Option (List Char × List Char)
  | 0, _ => none
  | n + 1, cs =>
    match cs with
    | [] => none
    | '"' :: rest => some ([], rest)
    | '\\' :: rest => do
      let (c, rest) ← readEscape? rest
      let (s, rest) ← readString? n rest
      return (c :: s, rest)
    | c :: rest =>
      if c.toNat < 0x20 then none
      else do
        let (s, rest) ← readString? n rest
        return (c :: s, rest)

/-- Whether a character is one of the ten digits. -/
def isAsciiDigit (c : Char) : Bool := '0' ≤ c && c ≤ '9'

/-- The fraction and the exponent of a JSON number, with the rest. -/
def numberTail (cs : List Char) : List Char × List Char :=
  let (fraction, rest) :=
    match cs with
    | '.' :: more =>
      match more.takeWhile isAsciiDigit with
      | [] => ([], cs)
      | ds => ('.' :: ds, more.drop ds.length)
    | _ => ([], cs)
  match rest with
  | e :: more =>
    if e == 'e' || e == 'E' then
      let (sign, digits) :=
        match more with
        | '+' :: digits => (['+'], digits)
        | '-' :: digits => (['-'], digits)
        | digits => ([], digits)
      match digits.takeWhile isAsciiDigit with
      | [] => (fraction, rest)
      | ds => (fraction ++ e :: sign ++ ds, digits.drop ds.length)
    else (fraction, rest)
  | [] => (fraction, rest)

/-- A JSON number after its sign, with the rest. -/
def readNumber? (negative : Bool) (cs : List Char) : Option (Data × List Char) :=
  let whole? : Option (List Char) :=
    match cs.takeWhile isAsciiDigit with
    | [] => none
    | '0' :: _ => some ['0']
    | ds => some ds
  match whole? with
  | none => none
  | some whole =>
    let (tail, rest) := numberTail (cs.drop whole.length)
    if tail.isEmpty then
      let n : Int := Text.digitsValue whole
      some (.int (if negative then -n else n), rest)
    else some (.float ((Decimal.Numeral.ofChars (whole ++ tail)).toFloat negative), rest)

/-- What follows a word, if the text starts with it. -/
def afterWord? (word : String) (cs : List Char) : Option (List Char) :=
  if word.toList.isPrefixOf cs then some (cs.drop word.length) else none

def readWord? (cs : List Char) : Option (Data × List Char) :=
  [("null", .null), ("true", .bool true), ("false", .bool false),
   ("NaN", .float (Float.ofBits 0x7ff8000000000000)),
   ("Infinity", .float (Decimal.infinity false)),
   ("-Infinity", .float (Decimal.infinity true))].findSome? fun (word, d) =>
    (afterWord? word cs).map fun rest => (d, rest)

mutual

def readValue? : Nat → List Char → Option (Data × List Char)
  | 0, _ => none
  | n + 1, cs =>
    match cs with
    | '"' :: rest => do
      let (s, rest) ← readString? (rest.length + 1) rest
      return (.str (String.ofList s), rest)
    | '[' :: rest =>
      match skipJsonBlanks rest with
      | ']' :: rest => some (.list [], rest)
      | rest => do
        let (items, rest) ← readItems? n rest
        return (.list items, rest)
    | '\x7b' :: rest =>
      match skipJsonBlanks rest with
      | '\x7d' :: rest => some (.map [], rest)
      | rest => do
        let (entries, rest) ← readEntries? n rest
        return (.map (ofEntries entries), rest)
    | cs =>
      match readWord? cs with
      | some r => some r
      | none =>
        match cs with
        | '-' :: rest => readNumber? true rest
        | cs => readNumber? false cs

/-- The items of a list and its closing bracket, with the rest. -/
def readItems? : Nat → List Char → Option (List Data × List Char)
  | 0, _ => none
  | n + 1, cs => do
    let (d, rest) ← readValue? n cs
    match skipJsonBlanks rest with
    | ',' :: rest =>
      let (ds, rest) ← readItems? n (skipJsonBlanks rest)
      return (d :: ds, rest)
    | ']' :: rest => return ([d], rest)
    | _ => none

/-- The entries of a map and its closing brace, with the rest. -/
def readEntries? : Nat → List Char → Option (List (String × Data) × List Char)
  | 0, _ => none
  | n + 1, cs =>
    match cs with
    | '"' :: rest => do
      let (k, rest) ← readString? (rest.length + 1) rest
      match skipJsonBlanks rest with
      | ':' :: rest =>
        let (d, rest) ← readValue? n (skipJsonBlanks rest)
        match skipJsonBlanks rest with
        | ',' :: rest =>
          let (es, rest) ← readEntries? n (skipJsonBlanks rest)
          return ((String.ofList k, d) :: es, rest)
        | '\x7d' :: rest => return ([(String.ofList k, d)], rest)
        | _ => none
      | _ => none
    | _ => none

end

def ofJson? (text : String) : Option Data := do
  let cs := text.toList
  let (d, rest) ← readValue? (2 * cs.length + 2) (skipJsonBlanks cs)
  if (skipJsonBlanks rest).isEmpty then return d else none

end Clausal.Data
