import Clausal.Term.Basic

/-!
# The text of terms

Compound terms are written with their arguments in parentheses, strings between double quotes
without escapes. Integers beyond the digit limit have no text, and then the whole term has none.
-/

namespace Clausal.Term

/-- Pieces with a separator between them. -/
def joinChars (sep : List Char) : List (List Char) → List Char
  | [] => []
  | [x] => x
  | x :: xs => x ++ sep ++ joinChars sep xs

/-- A name applied to arguments, or the name alone if there are none. -/
def applied (name : String) (args : List (List Char)) : List Char :=
  match args with
  | [] => name.toList
  | args => name.toList ++ '(' :: joinChars [',', ' '] args ++ [')']

mutual

def chars : Term → List Char
  | .var x => x.toList
  | .atom a => a.toList
  | .int n => Number.intText n
  | .float x => (Decimal.floatText x).toList
  | .str s => '"' :: s.toList ++ ['"']
  | .compound f args => applied f (charsAll args)

def charsAll : List Term → List (List Char)
  | [] => []
  | t :: ts => chars t :: charsAll ts

end

mutual

/-- Whether every integer of a term has a written form. -/
def hasText : Term → Bool
  | .int n => Number.hasText n
  | .compound _ args => hasTextAll args
  | _ => true

def hasTextAll : List Term → Bool
  | [] => true
  | t :: ts => hasText t && hasTextAll ts

end

def text (t : Term) : String :=
  String.ofList t.chars

/-- The text of a term that has one. -/
def text? (t : Term) : Option String :=
  if t.hasText then some t.text else none

end Clausal.Term
