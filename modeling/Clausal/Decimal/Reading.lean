import Clausal.Decimal.Shortest
import Clausal.Text.Classes

/-!
# Reading decimal numbers

A numeral has an integer part and may have a fraction and an exponent, all written in decimal digits
of any script. Its value is the nearest floating-point number, or infinity.
-/

namespace Clausal.Decimal

open Text (isDigit digitsValue)

/-- A numeral in pieces: integer digits, fraction digits, and a signed exponent. -/
structure Numeral where
  whole : List Char
  fraction : List Char
  exponent : Int

/-- Splits off the longest run of digits. -/
def takeDigits (cs : List Char) : List Char × List Char :=
  (cs.takeWhile isDigit, cs.dropWhile isDigit)

/-- A sign in front of an exponent, with the rest. -/
def takeSign : List Char → Bool × List Char
  | '-' :: cs => (true, cs)
  | '+' :: cs => (false, cs)
  | cs => (false, cs)

/-- The exponent after its mark, zero where there is no mark. -/
def readExponent : List Char → Int
  | 'e' :: cs | 'E' :: cs =>
    let (negative, rest) := takeSign cs
    let n := digitsValue (takeDigits rest).1
    if negative then -(n : Int) else n
  | _ => 0

/-- Takes a numeral apart at its point and its exponent mark. -/
def Numeral.ofChars (cs : List Char) : Numeral :=
  let (whole, rest) := takeDigits cs
  match rest with
  | '.' :: rest =>
    let (fraction, rest) := takeDigits rest
    ⟨whole, fraction, readExponent rest⟩
  | rest => ⟨whole, [], readExponent rest⟩

def Numeral.scientific (n : Numeral) : Scientific :=
  ⟨digitsValue (n.whole ++ n.fraction), n.exponent - n.fraction.length⟩

/-- The nearest floating-point number to a signed decimal. Decimals far outside the range of the
format are settled by their leading exponent alone. -/
def Scientific.toFloat (negative : Bool) (s : Scientific) : Float :=
  if s.coefficient = 0 then ofMagnitude negative 0 else
    let lead := s.exponent + (digitCount s.coefficient : Int)
    if 400 < lead then infinity negative
    else if lead < -400 then ofMagnitude negative 0
    else nearest negative s.fraction.1 s.fraction.2

def Numeral.toFloat (negative : Bool) (n : Numeral) : Float :=
  n.scientific.toFloat negative

/-- A signed floating-point text: a numeral, or a name of an infinity or of what is not a number. -/
def floatOfText? (s : String) : Option Float :=
  let (negative, rest) := takeSign s.toList
  if rest = ['i', 'n', 'f'] then some (infinity negative)
  else if rest = ['n', 'a', 'n'] then some (Float.ofBits 0x7ff8000000000000)
  else match rest with
    | [] => none
    | c :: _ =>
      if isDigit c || c == '.' then some ((Numeral.ofChars rest).toFloat negative) else none

end Clausal.Decimal
