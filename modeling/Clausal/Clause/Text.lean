import Clausal.Clause.Basic

/-!
# The text of clauses and goals

A clause ends in a period, a negated goal starts with `not`, and the head of a rule stands before
`:-`. A rule without goals is written like a fact. Integers beyond the digit limit have no text.
-/

namespace Clausal

open Term (applied charsAll hasTextAll joinChars)

namespace Fact

/-- The characters of a fact without its period. -/
def literalChars (f : Fact) : List Char := applied f.predicate (charsAll f.args)

def chars (f : Fact) : List Char := f.literalChars ++ ['.']

def hasText (f : Fact) : Bool := hasTextAll f.args

def text (f : Fact) : String := String.ofList f.chars

/-- The text of a fact, a fault if it has none. -/
def write (f : Fact) : Except Fault String :=
  if f.hasText then .ok f.text else .error .unwritable

end Fact

namespace Goal

def chars (g : Goal) : List Char :=
  let literal := applied g.predicate (charsAll g.args)
  if g.negated then 'n' :: 'o' :: 't' :: ' ' :: literal else literal

def hasText (g : Goal) : Bool := hasTextAll g.args

def text (g : Goal) : String := String.ofList g.chars

def write (g : Goal) : Except Fault String :=
  if g.hasText then .ok g.text else .error .unwritable

/-- The characters of several goals, separated by commas. -/
def charsList (gs : List Goal) : List Char := joinChars [',', ' '] (gs.map chars)

/-- The text of several goals, a fault if one of them has none. -/
def writeList (gs : List Goal) : Except Fault String :=
  if gs.all hasText then .ok (String.ofList (charsList gs)) else .error .unwritable

end Goal

namespace Rule

def chars (r : Rule) : List Char :=
  if r.body.isEmpty then r.head.chars
  else r.head.literalChars ++ ' ' :: ':' :: '-' :: ' ' :: Goal.charsList r.body ++ ['.']

def hasText (r : Rule) : Bool := r.head.hasText && r.body.all Goal.hasText

def text (r : Rule) : String := String.ofList r.chars

def write (r : Rule) : Except Fault String :=
  if r.hasText then .ok r.text else .error .unwritable

end Rule

end Clausal
