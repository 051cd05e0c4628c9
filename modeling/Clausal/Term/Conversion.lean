import Clausal.Clause.Basic
import Clausal.Text.Classes

/-!
# Terms from plain values

Callers that hold plain values can turn them into terms, and terms into facts. A text becomes a
variable if it starts with an upper-case letter and an atom otherwise.
-/

namespace Clausal

/-- A plain value of a caller. -/
inductive Plain where
  | int (value : Int)
  | float (value : Float)
  | str (value : String)
  | bool (value : Bool)
  | none
  | list
  | term (value : Term)

namespace Term

def ofPlain : Plain → Except Fault Term
  | .term t => .ok t
  | .bool _ => .error (.conversion .boolean)
  | .int n => .ok (.int n)
  | .float x => .ok (.float x)
  | .str s =>
    if s = "" then .error (.conversion .emptyText)
    else if Text.startsUpper s then .ok (.var s)
    else .ok (.atom s)
  | .none => .error (.conversion (.noTerm "NoneType"))
  | .list => .error (.conversion (.noTerm "list"))

/-- The integer literal of a number; a fraction is dropped. -/
def integerLiteral : Number → Except Fault Term
  | .int n => .ok (.int n)
  | .float x =>
    match Decimal.view x with
    | .nan => .error (.conversion .nanToInteger)
    | .infinite _ => .error (.conversion .infinityToInteger)
    | .finite p => .ok (.int p.truncate)

/-- The floating-point literal nearest to a number. -/
def floatLiteral (n : Number) : Except Fault Term :=
  match n.toFloat? with
  | some x => .ok (.float x)
  | none => .error (.conversion .integerToFloat)

/-- A constant as messages show it: its kind and its value. -/
def shown : Term → String
  | .var x => "Variable(name=" ++ Text.quoted x ++ ")"
  | .atom a => "Atom(name=" ++ Text.quoted a ++ ")"
  | .int n => "Integer(value=" ++ String.ofList (Number.intText n) ++ ")"
  | .float x => "Float(value=" ++ Decimal.floatText x ++ ")"
  | .str s => "String(value=" ++ Text.quoted s ++ ")"
  | .compound f _ => "Compound(functor=" ++ Text.quoted f ++ ")"

/-- The terms of a list without those that are close to an earlier one that was kept. -/
def distinct (ts : List Term) : List Term :=
  ts.foldl (fun kept t => if kept.any (close · t) then kept else kept ++ [t]) []

end Term

/-- The fact that a compound term or an atom states. -/
def Fact.ofTerm (t : Term) : Except Fault Fact :=
  match t with
  | .compound f args => Fact.of? f args
  | .atom a => Fact.of? a []
  | t => .error (if t.hasText then .conversion (.notFact t.shown) else .unwritable)

end Clausal
