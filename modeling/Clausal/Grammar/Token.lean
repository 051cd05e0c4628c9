import Clausal.Fault
import Clausal.Text.Classes

/-!
# Tokens

A text is cut into tokens by trying the patterns of the language in a fixed order at every place:
comments, blanks, strings, numerals, names, the neck of a rule, operators and punctuation. Each
pattern takes as much as it can. Blanks and comments separate tokens and are dropped.
-/

namespace Clausal

inductive TokenKind where
  | string
  | number
  | name
  | neck
  | op
  | punct
deriving DecidableEq

/-- A token, its text and its place: the number of characters before it. -/
structure Token where
  kind : TokenKind
  text : String
  pos : Nat
deriving DecidableEq

namespace Grammar

open Text (isBlank isDigit isWordChar)

/-- What a pattern can match: a token, or what separates tokens. -/
inductive Lexeme where
  | separator
  | token (kind : TokenKind)
deriving DecidableEq

/-- A percent sign and the rest of its line. -/
def comment? : List Char → Option (List Char)
  | '%' :: cs => some ('%' :: cs.takeWhile (· != '\n'))
  | _ => none

/-- A run of blanks. -/
def blank? (cs : List Char) : Option (List Char) :=
  match cs.takeWhile isBlank with
  | [] => none
  | m => some m

/-- The rest of a string behind its opening quote, with the closing one. A backslash takes the next
character with it, which may be anything but the end of the line. -/
def stringRest? : List Char → Option (List Char)
  | [] => none
  | '"' :: _ => some ['"']
  | '\\' :: [] => none
  | '\\' :: c :: cs =>
    if c == '\n' then none
    else match stringRest? cs with
      | some m => some ('\\' :: c :: m)
      | none => none
  | c :: cs =>
    match stringRest? cs with
    | some m => some (c :: m)
    | none => none

def string? : List Char → Option (List Char)
  | '"' :: cs =>
    match stringRest? cs with
    | some m => some ('"' :: m)
    | none => none
  | _ => none

/-- A point and digits, or nothing. -/
def fractionPart : List Char → List Char
  | '.' :: cs =>
    match cs.takeWhile isDigit with
    | [] => []
    | ds => '.' :: ds
  | _ => []

/-- Digits with an optional sign, or nothing. -/
def signedDigits : List Char → List Char
  | '+' :: cs =>
    match cs.takeWhile isDigit with
    | [] => []
    | ds => '+' :: ds
  | '-' :: cs =>
    match cs.takeWhile isDigit with
    | [] => []
    | ds => '-' :: ds
  | cs => cs.takeWhile isDigit

/-- An exponent mark and a number, or nothing. -/
def exponentPart : List Char → List Char
  | 'e' :: cs =>
    match signedDigits cs with
    | [] => []
    | ds => 'e' :: ds
  | 'E' :: cs =>
    match signedDigits cs with
    | [] => []
    | ds => 'E' :: ds
  | _ => []

/-- Digits with an optional fraction and an optional exponent. -/
def number? (cs : List Char) : Option (List Char) :=
  match cs.takeWhile isDigit with
  | [] => none
  | whole =>
    let rest := cs.drop whole.length
    let fraction := fractionPart rest
    some (whole ++ fraction ++ exponentPart (rest.drop fraction.length))

/-- A word that does not start with a decimal digit. -/
def name? : List Char → Option (List Char)
  | [] => none
  | c :: cs => if isWordChar c && !isDigit c then some (c :: cs.takeWhile isWordChar) else none

/-- The neck of a rule. -/
def neck? : List Char → Option (List Char)
  | ':' :: '-' :: _ => some [':', '-']
  | _ => none

/-- An operator, of two characters where possible. -/
def op? : List Char → Option (List Char)
  | '<' :: '=' :: _ => some ['<', '=']
  | '>' :: '=' :: _ => some ['>', '=']
  | '=' :: '<' :: _ => some ['=', '<']
  | c :: _ => if ['=', '<', '>', '+', '-', '*', '/'].contains c then some [c] else none
  | [] => none

/-- A bracket, a comma or a period. -/
def punct? : List Char → Option (List Char)
  | c :: _ => if ['(', ')', ',', '.'].contains c then some [c] else none
  | [] => none

/-- The patterns in the order in which they are tried. -/
def patterns : List (Lexeme × (List Char → Option (List Char))) :=
  [(.separator, comment?),
   (.separator, blank?),
   (.token .string, string?),
   (.token .number, number?),
   (.token .name, name?),
   (.token .neck, neck?),
   (.token .op, op?),
   (.token .punct, punct?)]

/-- The first pattern that matches at the start of a text, with what it matches. -/
def lexeme? (cs : List Char) : Option (Lexeme × List Char) :=
  patterns.findSome? fun (kind, pattern) => (pattern cs).map (kind, ·)

/-- The tokens of a text that starts at the given place. -/
def tokensFrom (pos : Nat) : List Char → Except Fault (List Token)
  | [] => .ok []
  | c :: cs =>
    match lexeme? (c :: cs) with
    | none => .error (.parse (.unexpectedChar c pos))
    | some (lexeme, m) =>
      match tokensFrom (pos + m.length) (cs.drop (m.length - 1)) with
      | .error e => .error e
      | .ok ts =>
        match lexeme with
        | .separator => .ok ts
        | .token kind => .ok (⟨kind, String.ofList m, pos⟩ :: ts)
termination_by cs => cs.length
decreasing_by simp only [List.length_cons, List.length_drop]; omega

end Grammar

def tokenize (text : String) : Except Fault (List Token) :=
  Grammar.tokensFrom 0 text.toList

end Clausal
