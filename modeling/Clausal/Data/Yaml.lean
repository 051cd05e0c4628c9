import Clausal.Data.Json

/-!
# Block texts

Configurations are also kept in a small part of YAML: block mappings with an indentation for each
level, plain and quoted scalars, and flow values on one line. A plain scalar stands for nothing, a
truth value or a number if it looks like one, and for a text otherwise.
-/

namespace Clausal.Data

/-! ## Scalars -/

def nullWords : List String := ["", "~", "null", "Null", "NULL"]

def trueWords : List String := ["yes", "Yes", "YES", "true", "True", "TRUE", "on", "On", "ON"]

def falseWords : List String := ["no", "No", "NO", "false", "False", "FALSE", "off", "Off", "OFF"]

/-- A sign and the characters after it. -/
def splitSign : List Char → Bool × List Char
  | '-' :: cs => (true, cs)
  | '+' :: cs => (false, cs)
  | cs => (false, cs)

/-- The integer that a plain scalar writes: decimal digits with underscores between them. -/
def plainInt? (cs : List Char) : Option Int :=
  let (negative, digits) := splitSign cs
  let value (ds : List Char) : Int :=
    let n : Int := Text.digitsValue (ds.filter (· != '_'))
    if negative then -n else n
  match digits with
  | ['0'] => some 0
  | d :: ds =>
    if isAsciiDigit d && d != '0' && ds.all (fun c => isAsciiDigit c || c == '_') then
      some (value (d :: ds))
    else none
  | [] => none

/-- The floating-point number that a plain scalar writes: digits with a point, and a signed exponent
if there is one. -/
def plainFloat? (cs : List Char) : Option Float :=
  let (negative, rest) := splitSign cs
  if rest = ".inf".toList || rest = ".Inf".toList || rest = ".INF".toList then
    some (Decimal.infinity negative)
  else if cs = ".nan".toList || cs = ".NaN".toList || cs = ".NAN".toList then
    some (Float.ofBits 0x7ff8000000000000)
  else
    let whole := rest.takeWhile fun c => isAsciiDigit c || c == '_'
    match rest.drop whole.length with
    | '.' :: more =>
      let fraction := more.takeWhile fun c => isAsciiDigit c || c == '_'
      let clean (ds : List Char) := ds.filter (· != '_')
      let wellFormed := (whole.headD ' ' |> isAsciiDigit) || (whole.isEmpty && !fraction.isEmpty)
      let number (tail : List Char) : Float :=
        (Decimal.Numeral.ofChars (clean whole ++ '.' :: clean fraction ++ tail)).toFloat negative
      match more.drop fraction.length with
      | [] => if wellFormed then some (number []) else none
      | e :: sign :: ds =>
        if wellFormed && (e == 'e' || e == 'E') && (sign == '+' || sign == '-') &&
            !ds.isEmpty && ds.all isAsciiDigit then
          some (number ('e' :: sign :: ds))
        else none
      | _ => none
    | _ => none

def plainScalar (s : String) : Data :=
  if nullWords.contains s then .null
  else if trueWords.contains s then .bool true
  else if falseWords.contains s then .bool false
  else
    match plainInt? s.toList with
    | some n => .int n
    | none =>
      match plainFloat? s.toList with
      | some x => .float x
      | none => .str s

/-! ## Writing -/

/-- Whether a text may start a plain scalar. -/
def startsPlain : List Char → Bool
  | [] => false
  | c :: cs =>
    if "#,[]\x7b\x7d&*!|>'\"%@`".toList.contains c then false
    else if c == '-' || c == '?' || c == ':' then
      match cs with
      | [] => false
      | d :: _ => d != ' '
    else c != ' '

/-- Whether a colon before a blank or a number sign after a blank would end a plain scalar. -/
def breaksPlain : List Char → Bool
  | [':'] => true
  | ':' :: ' ' :: _ => true
  | ' ' :: '#' :: _ => true
  | [' '] => true
  | _ :: cs => breaksPlain cs
  | [] => false

/-- Whether a text can be written as a plain scalar. -/
def isPlain (s : String) : Bool :=
  let cs := s.toList
  startsPlain cs && !breaksPlain cs &&
    !("---".toList.isPrefixOf cs || "...".toList.isPrefixOf cs) &&
    (match plainScalar s with
      | .str _ => true
      | _ => false)

def escapeYaml (c : Char) : List Char :=
  if c == '"' then ['\\', '"']
  else if c == '\\' then ['\\', '\\']
  else if c == '\n' then ['\\', 'n']
  else if c == '\r' then ['\\', 'r']
  else if c == '\t' then ['\\', 't']
  else if 0x20 ≤ c.toNat && c.toNat ≤ 0x7e then [c]
  else
    let upper (cs : List Char) := cs.map Char.toUpper
    if c.toNat ≤ 0xff then '\\' :: 'x' :: upper (Text.hexPadded 2 c.toNat)
    else if c.toNat ≤ 0xffff then '\\' :: 'u' :: upper (Text.hexPadded 4 c.toNat)
    else '\\' :: 'U' :: upper (Text.hexPadded 8 c.toNat)

/-- A text as a scalar: plain if possible, between single quotes if all its characters are
printable, and between double quotes otherwise. -/
def yamlString (s : String) : String :=
  let cs := s.toList
  if cs.all fun c => 0x20 ≤ c.toNat && c.toNat ≤ 0x7e then
    if isPlain s then s
    else String.ofList
      ('\'' :: cs.flatMap (fun c => if c == '\'' then ['\'', '\''] else [c]) ++ ['\''])
  else String.ofList ('"' :: cs.flatMap escapeYaml ++ ['"'])

/-- A number as a scalar; the digits of a number with an exponent have a point. -/
def yamlFloat (x : Float) : String :=
  match Decimal.view x with
  | .nan => ".nan"
  | .infinite negative => if negative then "-.inf" else ".inf"
  | .finite _ =>
    let cs := (Decimal.floatText x).toList
    if cs.contains '.' || !cs.contains 'e' then String.ofList cs
    else String.ofList (cs.flatMap fun c => if c == 'e' then ['.', '0', 'e'] else [c])

def indent (level : Nat) : String := String.ofList (List.replicate (2 * level) ' ')

mutual

/-- What stands behind the colon of a key or the dash of an item: a scalar on the same line, or
further lines. -/
def yamlAfter (level : Nat) : Data → String
  | .null => " null\n"
  | .bool b => if b then " true\n" else " false\n"
  | .int n => " " ++ toString n ++ "\n"
  | .float x => " " ++ yamlFloat x ++ "\n"
  | .str s => " " ++ yamlString s ++ "\n"
  | .list [] => " []\n"
  | .list (d :: ds) => "\n" ++ yamlItems level (d :: ds)
  | .map [] => " \x7b\x7d\n"
  | .map (e :: es) => "\n" ++ yamlEntries (level + 1) (e :: es)

/-- The items of a list, each on a line behind a dash. -/
def yamlItems (level : Nat) : List Data → String
  | [] => ""
  | d :: ds => indent level ++ "-" ++ yamlAfter (level + 1) d ++ yamlItems level ds

/-- The entries of a map, each on a line of its own. -/
def yamlEntries (level : Nat) : List (String × Data) → String
  | [] => ""
  | (k, d) :: es => indent level ++ yamlString k ++ ":" ++ yamlAfter level d ++ yamlEntries level es

end

def yaml (entries : List (String × Data)) : String :=
  if entries.isEmpty then "\x7b\x7d\n" else yamlEntries 0 entries

/-! ## Reading -/

/-- A line with content: its indentation and its characters. -/
structure Line where
  indent : Nat
  chars : List Char

/-- The characters of a line before a comment. Number signs between quotes do not count. -/
def withoutComment (quote : Option Char) (blank : Bool) : List Char → List Char
  | [] => []
  | c :: cs =>
    match quote with
    | some q => c :: withoutComment (if c == q then none else quote) false cs
    | none =>
      if c == '#' && blank then []
      else if c == '\'' || c == '"' then
        c :: withoutComment (if blank then some c else none) false cs
      else c :: withoutComment none (c == ' ' || c == ':') cs

def trimEnd (cs : List Char) : List Char :=
  (cs.reverse.dropWhile fun c => c == ' ' || c == '\t' || c == '\r').reverse

/-- The lines of a text that hold more than blanks and comments. -/
def contentLines (text : String) : List Line :=
  ((text.splitOn "\n").map fun l =>
    let cs := l.toList
    let blanks := (cs.takeWhile (· == ' ')).length
    (⟨blanks, trimEnd (withoutComment none true (cs.drop blanks))⟩ : Line)).filter
    fun l => !l.chars.isEmpty && l.chars != "---".toList

/-- Drops blanks inside a flow value. -/
def skipFlowBlanks (cs : List Char) : List Char :=
  cs.dropWhile fun c => c == ' ' || c == '\n' || c == '\r' || c == '\t'

/-- The rest of a scalar between single quotes, with what follows; a doubled quote
stands for one. -/
def readSingle? : List Char → Option (List Char × List Char)
  | '\'' :: '\'' :: cs => (readSingle? cs).map fun (s, rest) => ('\'' :: s, rest)
  | '\'' :: cs => some ([], cs)
  | c :: cs => (readSingle? cs).map fun (s, rest) => (c :: s, rest)
  | [] => none

def readHex? : Nat → Nat → List Char → Option (Nat × List Char)
  | 0, value, cs => some (value, cs)
  | n + 1, value, c :: cs => (hexValue? c).bind fun d => readHex? n (16 * value + d) cs
  | _ + 1, _, [] => none

/-- The character of an escape between double quotes, with the rest. -/
def readYamlEscape? : List Char → Option (Char × List Char)
  | 'x' :: cs => (readHex? 2 0 cs).map fun (n, rest) => (Char.ofNat n, rest)
  | 'u' :: cs => (readHex? 4 0 cs).map fun (n, rest) => (Char.ofNat n, rest)
  | 'U' :: cs => (readHex? 8 0 cs).map fun (n, rest) => (Char.ofNat n, rest)
  | '0' :: cs => some ('\x00', cs)
  | 'a' :: cs => some ('\x07', cs)
  | 'e' :: cs => some ('\x1b', cs)
  | 'v' :: cs => some ('\x0b', cs)
  | ' ' :: cs => some (' ', cs)
  | cs => readEscape? cs

/-- The rest of a scalar between double quotes, with what follows. -/
def readDouble? : Nat → List Char → Option (List Char × List Char)
  | 0, _ => none
  | n + 1, cs =>
    match cs with
    | [] => none
    | '"' :: rest => some ([], rest)
    | '\\' :: rest => do
      let (c, rest) ← readYamlEscape? rest
      let (s, rest) ← readDouble? n rest
      return (c :: s, rest)
    | c :: rest => do
      let (s, rest) ← readDouble? n rest
      return (c :: s, rest)

/-- A plain scalar inside a flow value, with the rest: it ends at a bracket, a comma, or a colon
before a blank. -/
def takeFlowPlain : List Char → List Char × List Char
  | [] => ([], [])
  | c :: cs =>
    let ends :=
      ",[]\x7b\x7d".toList.contains c ||
        (c == ':' && (cs.isEmpty || " \n,[]\x7b\x7d".toList.contains (cs.headD ' ')))
    if ends then ([], c :: cs)
    else
      let (s, rest) := takeFlowPlain cs
      (c :: s, rest)

/-- A scalar inside a flow value, with the rest. -/
def readFlowScalar? (cs : List Char) : Option (Data × List Char) :=
  match cs with
  | '\'' :: rest => (readSingle? rest).map fun (s, rest) => (.str (String.ofList s), rest)
  | '"' :: rest =>
    (readDouble? (rest.length + 1) rest).map fun (s, rest) => (.str (String.ofList s), rest)
  | cs =>
    let (s, rest) := takeFlowPlain cs
    some (plainScalar (String.ofList (trimEnd s)), rest)

def keyText : Data → String
  | .str s => s
  | .null => "null"
  | d => d.shown

mutual

def readFlow? : Nat → List Char → Option (Data × List Char)
  | 0, _ => none
  | n + 1, cs =>
    match cs with
    | '[' :: rest => (readFlowItems? n (skipFlowBlanks rest)).map fun (ds, rest) => (.list ds, rest)
    | '\x7b' :: rest =>
      (readFlowEntries? n (skipFlowBlanks rest)).map fun (es, rest) => (.map (ofEntries es), rest)
    | cs => readFlowScalar? cs

/-- The items of a flow list and its closing bracket, with the rest. -/
def readFlowItems? : Nat → List Char → Option (List Data × List Char)
  | 0, _ => none
  | n + 1, cs =>
    match cs with
    | ']' :: rest => some ([], rest)
    | cs => do
      let (d, rest) ← readFlow? n cs
      match skipFlowBlanks rest with
      | ',' :: rest =>
        let (ds, rest) ← readFlowItems? n (skipFlowBlanks rest)
        return (d :: ds, rest)
      | ']' :: rest => return ([d], rest)
      | _ => none

/-- The entries of a flow map and its closing brace, with the rest. -/
def readFlowEntries? : Nat → List Char → Option (List (String × Data) × List Char)
  | 0, _ => none
  | n + 1, cs =>
    match cs with
    | '\x7d' :: rest => some ([], rest)
    | cs => do
      let (k, rest) ← readFlowScalar? cs
      let (d, rest) ←
        match skipFlowBlanks rest with
        | ':' :: rest => readFlow? n (skipFlowBlanks rest)
        | rest => some (.null, rest)
      match skipFlowBlanks rest with
      | ',' :: rest =>
        let (es, rest) ← readFlowEntries? n (skipFlowBlanks rest)
        return ((keyText k, d) :: es, rest)
      | '\x7d' :: rest => return ([(keyText k, d)], rest)
      | _ => none

end

/-- Whether a text starts a flow value or a quoted scalar. -/
def startsFlow (cs : List Char) : Bool :=
  "[\x7b'\"".toList.contains (cs.headD ' ')

/-- A value that stands on one line. -/
def readInline? (cs : List Char) : Option Data :=
  if startsFlow cs then
    match readFlow? (2 * cs.length + 2) cs with
    | some (d, rest) => if (skipFlowBlanks rest).isEmpty then some d else none
    | none => none
  else if startsPlain cs && !breaksPlain cs then some (plainScalar (String.ofList cs))
  else none

/-- The key of a line and what stands behind its colon. -/
def splitKey? : List Char → Option (List Char × List Char)
  | [':'] => some ([], [])
  | ':' :: ' ' :: cs => some ([], cs.dropWhile (· == ' '))
  | c :: cs => (splitKey? cs).map fun (k, v) => (c :: k, v)
  | [] => none

/-- The entry that a line starts: its key, and its value if that stands on the same line. -/
def readField? (cs : List Char) : Option (String × List Char) :=
  if startsFlow cs then
    match readFlowScalar? cs with
    | some (k, rest) =>
      match skipFlowBlanks rest with
      | ':' :: v => some (keyText k, skipFlowBlanks v)
      | _ => none
    | none => none
  else
    match splitKey? cs with
    | some (k, v) =>
      if startsPlain k then some (keyText (plainScalar (String.ofList k)), v) else none
    | none => none

mutual

/-- A block value of lines that are indented at least as far as the bound, with the other lines. -/
def readBlock? : Nat → Nat → List Line → Option (Data × List Line)
  | 0, _, _ => none
  | _ + 1, _, [] => some (.null, [])
  | n + 1, bound, l :: ls =>
    if l.indent < bound then some (.null, l :: ls)
    else
      match l.chars with
      | '-' :: ' ' :: _ | ['-'] =>
        (readBlockItems? n l.indent (l :: ls)).map fun (ds, rest) => (.list ds, rest)
      | cs =>
        match readField? cs with
        | some _ =>
          (readBlockEntries? n l.indent (l :: ls)).map fun (es, rest) => (.map (ofEntries es), rest)
        | none => (readInline? cs).map fun d => (d, ls)

/-- The items of a block list at an indentation, with the other lines. -/
def readBlockItems? : Nat → Nat → List Line → Option (List Data × List Line)
  | 0, _, _ => none
  | _ + 1, _, [] => some ([], [])
  | n + 1, column, l :: ls =>
    if l.indent < column then some ([], l :: ls)
    else if column < l.indent then none
    else
      match l.chars with
      | ['-'] => do
        let (d, rest) ← readBlock? n (column + 1) ls
        let (ds, rest) ← readBlockItems? n column rest
        return (d :: ds, rest)
      | '-' :: ' ' :: cs => do
        let d ← readInline? (cs.dropWhile (· == ' '))
        let (ds, rest) ← readBlockItems? n column ls
        return (d :: ds, rest)
      | _ => none

/-- The entries of a block mapping at an indentation, with the other lines. A list below a key may
stand at the indentation of the key. -/
def readBlockEntries? : Nat → Nat → List Line → Option (List (String × Data) × List Line)
  | 0, _, _ => none
  | _ + 1, _, [] => some ([], [])
  | n + 1, column, l :: ls =>
    if l.indent < column then some ([], l :: ls)
    else if column < l.indent then none
    else do
      let (k, v) ← readField? l.chars
      let (d, rest) ←
        if v.isEmpty then
          match ls with
          | ⟨i, '-' :: _⟩ :: _ => readBlock? n (if i == column then column else column + 1) ls
          | ls => readBlock? n (column + 1) ls
        else (readInline? v).map fun d => (d, ls)
      let (es, rest) ← readBlockEntries? n column rest
      return ((k, d) :: es, rest)

end

def ofYaml? (text : String) : Option Data := do
  let lines := contentLines text
  match lines with
  | [] => return .null
  | l :: _ =>
    if startsFlow l.chars && (readField? l.chars).isNone then
      let cs := skipFlowBlanks ("\n".intercalate (lines.map fun l => String.ofList l.chars)).toList
      let (d, rest) ← readFlow? (2 * cs.length + 2) cs
      if (skipFlowBlanks rest).isEmpty then return d else none
    else
      let (d, rest) ← readBlock? (3 * lines.length + 3) 0 lines
      if rest.isEmpty then return d else none

end Clausal.Data
