import Clausal.Decimal.Layout
import Clausal.Text.Quoted

/-!
# Plain data

Configurations and log records carry plain data: nothing, truth values, numbers, texts, lists, and
maps from texts to data whose entries keep their order.
-/

namespace Clausal

inductive Data where
  | null
  | bool (value : Bool)
  | int (value : Int)
  | float (value : Float)
  | str (value : String)
  | list (items : List Data)
  | map (entries : List (String × Data))
deriving Inhabited

namespace Data

/-- Whether data count as true: all but nothing, falsehood, zero and what is empty. -/
def isTrue : Data → Bool
  | .null => false
  | .bool b => b
  | .int n => n != 0
  | .float x => !(x == 0.0)
  | .str s => s != ""
  | .list items => !items.isEmpty
  | .map entries => !entries.isEmpty

def get? (entries : List (String × Data)) (key : String) : Option Data :=
  entries.lookup key

/-- Sets an entry of a map, in its old place if it has one. -/
def set (entries : List (String × Data)) (key : String) (value : Data) : List (String × Data) :=
  if entries.any (·.1 == key) then entries.map fun e => if e.1 == key then (key, value) else e
  else entries ++ [(key, value)]

/-- A map with the given entries; a later entry takes the place of an earlier one with its key. -/
def ofEntries (entries : List (String × Data)) : List (String × Data) :=
  entries.foldl (fun es e => set es e.1 e.2) []

mutual

/-- Whether data are equal; numbers are compared by value, so what is not a number
equals nothing. -/
def same : Data → Data → Bool
  | .null, .null => true
  | .bool a, .bool b => a == b
  | .int a, .int b => a == b
  | .float a, .float b => a == b
  | .str a, .str b => a == b
  | .list as, .list bs => sameItems as bs
  | .map as, .map bs => sameEntries as bs
  | _, _ => false

def sameItems : List Data → List Data → Bool
  | [], [] => true
  | a :: as, b :: bs => a.same b && sameItems as bs
  | _, _ => false

def sameEntries : List (String × Data) → List (String × Data) → Bool
  | [], [] => true
  | (k, a) :: as, (l, b) :: bs => k == l && a.same b && sameEntries as bs
  | _, _ => false

end

mutual

/-- Data as messages show them. -/
def shown : Data → String
  | .null => "None"
  | .bool true => "True"
  | .bool false => "False"
  | .int n => toString n
  | .float x => Decimal.floatText x
  | .str s => Text.quoted s
  | .list items => "[" ++ shownItems items ++ "]"
  | .map entries => "\x7b" ++ shownEntries entries ++ "\x7d"

def shownItems : List Data → String
  | [] => ""
  | [d] => d.shown
  | d :: ds => d.shown ++ ", " ++ shownItems ds

def shownEntries : List (String × Data) → String
  | [] => ""
  | [(k, d)] => Text.quoted k ++ ": " ++ d.shown
  | (k, d) :: es => Text.quoted k ++ ": " ++ d.shown ++ ", " ++ shownEntries es

end

end Data

end Clausal
