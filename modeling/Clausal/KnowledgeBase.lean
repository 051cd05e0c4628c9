import Clausal.Clause.Text

/-!
# Knowledge bases

A knowledge base holds facts and rules by predicate, each in the order in which they were added,
with duplicates. A predicate keeps its place among the others from its first fact or rule on, even
when all its facts are removed. Beside them stands the table of known arities.
-/

namespace Clausal

/-- Items by name. Names come in the order of their first item, items in the order of addition. -/
structure Groups (α : Type) where
  groups : List (String × List α) := []

namespace Groups

variable {α : Type}

/-- Adds an item at the end of its group, and a new group at the end of the groups. -/
def insert (name : String) (a : α) : List (String × List α) → List (String × List α)
  | [] => [(name, [a])]
  | (n, as) :: gs => if n == name then (n, as ++ [a]) :: gs else (n, as) :: insert name a gs

def add (g : Groups α) (name : String) (a : α) : Groups α :=
  ⟨insert name a g.groups⟩

def get (g : Groups α) (name : String) : List α :=
  (g.groups.lookup name).getD []

def all (g : Groups α) : List α :=
  g.groups.flatMap Prod.snd

def size (g : Groups α) : Nat :=
  g.all.length

/-- Keeps those items under a name that pass the test. -/
def filterAt (g : Groups α) (name : String) (keep : α → Bool) : Groups α :=
  ⟨g.groups.map fun (n, as) => if n == name then (n, as.filter keep) else (n, as)⟩

end Groups

/-- Facts and rules by predicate, and the known arities of predicates. -/
structure KnowledgeBase where
  facts : Groups Fact := {}
  rules : Groups Rule := {}
  signatures : List (String × Nat) := []

namespace KnowledgeBase

def empty : KnowledgeBase := {}

instance : Inhabited KnowledgeBase := ⟨empty⟩

/-- The facts of a predicate in order of addition. -/
def factsFor (kb : KnowledgeBase) (predicate : String) : List Fact := kb.facts.get predicate

/-- The rules of a predicate in order of addition. -/
def rulesFor (kb : KnowledgeBase) (predicate : String) : List Rule := kb.rules.get predicate

def arityOf? (kb : KnowledgeBase) (predicate : String) : Option Nat :=
  kb.signatures.lookup predicate

/-- Adds a fact behind the other facts of its predicate. -/
def addFact (kb : KnowledgeBase) (f : Fact) : KnowledgeBase :=
  { kb with facts := kb.facts.add f.predicate f }

/-- Adds a rule behind the other rules of its predicate. -/
def addRule (kb : KnowledgeBase) (r : Rule) : KnowledgeBase :=
  { kb with rules := kb.rules.add r.predicate r }

def addClause (kb : KnowledgeBase) : Clause → KnowledgeBase
  | .fact f => kb.addFact f
  | .rule r => kb.addRule r

/-- Removes every fact that is close to the given one. -/
def removeFact (kb : KnowledgeBase) (f : Fact) : KnowledgeBase :=
  { kb with facts := kb.facts.filterAt f.predicate fun g => !g.close f }

/-- The number of facts that are close to the given one. -/
def countFact (kb : KnowledgeBase) (f : Fact) : Nat :=
  (kb.factsFor f.predicate).countP fun g => g.close f

/-- Records the arity of a predicate in place of an earlier one. -/
def register (kb : KnowledgeBase) (predicate : String) (arity : Nat) : KnowledgeBase :=
  { kb with signatures := (predicate, arity) :: kb.signatures.filter (·.1 != predicate) }

def factsCount (kb : KnowledgeBase) : Nat := kb.facts.size

def rulesCount (kb : KnowledgeBase) : Nat := kb.rules.size

def size (kb : KnowledgeBase) : Nat := kb.factsCount + kb.rulesCount

/-- The known arities, sorted by predicate. -/
def sortedSignatures (kb : KnowledgeBase) : List (String × Nat) :=
  kb.signatures.mergeSort fun a b => decide (a.1 ≤ b.1)

/-- A heading and indented lines, or nothing if there are no lines. -/
def section? (heading : String) (lines : List String) : Option String :=
  if lines.isEmpty then none
  else some ("\n".intercalate (heading :: lines.map ("  " ++ ·)))

/-- The clauses as text, facts before rules; a fault if one of them has no text. -/
def write (kb : KnowledgeBase) : Except Fault String := do
  let facts ← kb.facts.all.mapM Fact.write
  let rules ← kb.rules.all.mapM Rule.write
  match [section? "Facts:" facts, section? "Rules:" rules].filterMap id with
  | [] => return "Empty knowledge base"
  | sections => return "\n\n".intercalate sections

end KnowledgeBase

end Clausal
