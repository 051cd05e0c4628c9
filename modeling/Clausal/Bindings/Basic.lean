import Clausal.Term.Basic
import Std.Data.TreeMap

/-!
# Bindings

Bindings map variable names to terms. They are the list of all entries ever made, newest first; an
older entry for the same name is shadowed. A search tree over the names answers look-ups, and the
number of entries and of compound subterms is kept beside it. The three are determined by the list
of entries, so bindings with equal entries are equal.
-/

namespace Clausal

/-- The entries of bindings as a search tree. -/
def indexOf (entries : List (String × Term)) : Std.TreeMap String Term compare :=
  entries.foldr (fun e m => m.insert e.1 e.2) ∅

/-- The number of compound subterms in the values of entries. -/
def weightOf (entries : List (String × Term)) : Nat :=
  entries.foldr (fun e n => e.2.compounds + n) 0

/-- A finite map from variable names to terms. -/
structure Bindings where
  entries : List (String × Term)
  index : Std.TreeMap String Term compare
  count : Nat
  weight : Nat
  index_eq : index = indexOf entries
  count_eq : count = entries.length
  weight_eq : weight = weightOf entries

namespace Bindings

def empty : Bindings :=
  ⟨[], ∅, 0, 0, rfl, rfl, rfl⟩

instance : EmptyCollection Bindings := ⟨empty⟩

instance : Inhabited Bindings := ⟨empty⟩

/-- Adds an entry, which shadows an earlier one for the same name. -/
def insert (b : Bindings) (x : String) (t : Term) : Bindings where
  entries := (x, t) :: b.entries
  index := b.index.insert x t
  count := b.count + 1
  weight := t.compounds + b.weight
  index_eq := by rw [b.index_eq]; rfl
  count_eq := by rw [b.count_eq]; rfl
  weight_eq := by rw [b.weight_eq]; rfl

def get? (b : Bindings) (x : String) : Option Term :=
  b.index[x]?

/-- Bindings with the given entries, of which the last one for a name counts. -/
def ofList (entries : List (String × Term)) : Bindings :=
  entries.foldl (fun b e => b.insert e.1 e.2) ∅

/-- The entries that count, sorted by name. -/
def toList (b : Bindings) : List (String × Term) :=
  b.index.toList

@[ext] theorem ext {b c : Bindings} (h : b.entries = c.entries) : b = c := by
  obtain ⟨be, bi, bn, bw, hi, hn, hw⟩ := b
  obtain ⟨ce, ci, cn, cw, hi', hn', hw'⟩ := c
  subst h
  subst hi hn hw hi' hn' hw'
  rfl

@[simp] theorem entries_empty : (∅ : Bindings).entries = [] := rfl

@[simp] theorem entries_insert (b : Bindings) (x : String) (t : Term) :
    (b.insert x t).entries = (x, t) :: b.entries := rfl

@[simp] theorem get?_empty (x : String) : (∅ : Bindings).get? x = none := by
  show (∅ : Std.TreeMap String Term compare)[x]? = none
  simp

/-- The newest entry answers for its name, and the others for theirs. -/
theorem get?_insert (b : Bindings) (x y : String) (t : Term) :
    (b.insert x t).get? y = if x = y then some t else b.get? y := by
  show (b.index.insert x t)[y]? = _
  rw [Std.TreeMap.getElem?_insert]
  simp [get?, Std.LawfulEqCmp.compare_eq_iff_eq]

/-!
## Resolving variables

A bound variable stands for what its chain of bindings ends in: an unbound variable or a term that
is not a variable. A chain of variables that closes on itself ends in the first variable that it
meets for the second time.
-/

/-- Follows a chain of variables for a number of steps; nothing if the chain is longer. -/
def chase (b : Bindings) : Nat → String → Option Term
  | 0, _ => none
  | n + 1, x =>
    match b.get? x with
    | none => some (.var x)
    | some (.var y) => b.chase n y
    | some t => some t

/-- The first variable of a chain that is met again. -/
def firstRepeat (b : Bindings) : Nat → List String → String → String
  | 0, _, x => x
  | n + 1, seen, x =>
    if seen.contains x then x
    else match b.get? x with
      | some (.var y) => b.firstRepeat n (x :: seen) y
      | _ => x

/-- What the chain of a variable ends in. A chain longer than the number of entries is a circle. -/
def deref (b : Bindings) (x : String) : Term :=
  match b.chase (b.count + 1) x with
  | some t => t
  | none => .var (b.firstRepeat (b.count + 1) [] x)

/-- A variable is replaced by what its chain ends in; any other term stays as it is. -/
def resolve (b : Bindings) : Term → Term
  | .var x => b.deref x
  | t => t

/-- Whether a variable is the end of its chain. -/
def isOpen (b : Bindings) (x : String) : Bool :=
  match b.deref x with
  | .var y => x == y
  | _ => false

end Bindings

end Clausal
