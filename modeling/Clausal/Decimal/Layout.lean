import Clausal.Decimal.Shortest

/-!
# Layout of decimal numbers

Where the digits of a number stand: with a point among them for moderate sizes, with an exponent
otherwise, or with a fixed number of places.
-/

namespace Clausal.Decimal

/-- Decisions about the text of a number: the decimal exponents written without exponent mark are
those from `positionalFrom` up to but not including `positionalBelow`; an exponent has a sign and at
least `exponentWidth` digits. -/
structure Layout where
  positionalFrom : Int
  positionalBelow : Int
  exponentWidth : Nat

/-- Numbers in terms: positional from `0.0001` up to but not including ten to the sixteenth, and
exponents of at least two digits. -/
def Layout.terms : Layout := ⟨-4, 16, 2⟩

/-- The digits of a natural number without its trailing zeros. -/
def significantDigits (n : Nat) : List Char :=
  ((Nat.toDigits 10 n).reverse.dropWhile (· == '0')).reverse

/-- Digits with the point after the digit of exponent zero, and at least one digit on both sides of
the point. -/
def positional (digits : List Char) : Int → List Char
  | .ofNat e =>
    let whole := digits.take (e + 1) ++ List.replicate (e + 1 - digits.length) '0'
    let rest := digits.drop (e + 1)
    whole ++ '.' :: (if rest.isEmpty then ['0'] else rest)
  | .negSucc k => '0' :: '.' :: List.replicate k '0' ++ digits

/-- An exponent with its sign, padded to the layout's width. -/
def Layout.exponentText (l : Layout) (e : Int) : List Char :=
  let digits := Nat.toDigits 10 e.natAbs
  (if e < 0 then '-' else '+') :: List.replicate (l.exponentWidth - digits.length) '0' ++ digits

/-- Digits with the point after the first one, if there are more, and an exponent. -/
def Layout.withExponent (l : Layout) (digits : List Char) (e : Int) : List Char :=
  match digits with
  | [] => []
  | [d] => d :: 'e' :: l.exponentText e
  | d :: ds => d :: '.' :: ds ++ 'e' :: l.exponentText e

/-- The text of a positive decimal. -/
def Layout.write (l : Layout) (s : Scientific) : List Char :=
  let digits := significantDigits s.coefficient
  let e := s.exponent + (digitCount s.coefficient : Int) - 1
  if l.positionalFrom ≤ e && e < l.positionalBelow then positional digits e
  else l.withExponent digits e

def withSign (negative : Bool) (cs : List Char) : List Char :=
  if negative then '-' :: cs else cs

/-- The text of a finite number: the shortest decimal that reads back. -/
def Parts.text (p : Parts) : List Char :=
  withSign p.negative <|
    if p.mantissa = 0 then ['0', '.', '0']
    else Layout.terms.write (shortest p.fraction.1 p.fraction.2)

def floatText (x : Float) : String :=
  match view x with
  | .nan => "nan"
  | .infinite negative => if negative then "-inf" else "inf"
  | .finite p => String.ofList p.text

/-- A number of hundredths with two places. -/
def hundredths (n : Nat) : List Char :=
  Nat.toDigits 10 (n / 100) ++ '.' :: Nat.toDigits 10 (n / 10 % 10) ++ Nat.toDigits 10 (n % 10)

/-- The text of a number with two places, rounded to nearest and a tie to even. -/
def twoPlaces (x : Float) : String :=
  match view x with
  | .nan => "nan"
  | .infinite negative => if negative then "-inf" else "inf"
  | .finite p =>
    String.ofList (withSign p.negative (hundredths (roundDiv (100 * p.fraction.1) p.fraction.2)))

end Clausal.Decimal
