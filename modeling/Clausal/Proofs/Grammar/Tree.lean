import Clausal.Grammar.Parser

/-!
# The grammar and its syntax trees

The grammar of terms, clauses and queries over tokens, apart from any way to parse it:

    sum       = product {("+" | "-") product}
    product   = factor {("*" | "/") factor}
    factor    = "(" sum ")" | "-" NUMBER | NUMBER | STRING | upper-case NAME
              | other NAME [arguments] | OPERATOR arguments
    arguments = "(" [sum {"," sum}] ")"
    head      = other NAME [arguments]
    goal      = ["not"] sum [relation sum]
    body      = goal {"," goal}
    fact      = head ["."]
    rule      = head ":-" body ["."]
    query     = body ["."]
    program   = {clause "."} [clause]

The word `not` is a negation exactly when a name follows it. A syntax tree is a derivation: it holds
all tokens that it derives. It has a value unless one of its numerals is too long, or a goal without
a relation is not an atom or a compound term.
-/

namespace Clausal.Grammar

/-! ## Expressions -/

/-- The two levels of infix operators. -/
inductive Level where
  | sum
  | product

def Level.operators : Level → List String
  | sum => ["+", "-"]
  | product => ["*", "/"]

/-- The symbols of the grammar of expressions. A repetition is a symbol of its own. -/
inductive Symbol where
  | joined (l : Level)
  | operand (l : Level)
  | more (l : Level)
  | factor
  | arguments
  | moreArguments

/-- What a symbol stands for. Further operands are joined to what is on their left. -/
abbrev Symbol.Meaning : Symbol → Type
  | joined _ | operand _ | factor => Term
  | more _ => Term → Term
  | arguments | moreArguments => List Term

/-- The syntax trees of expressions. Their numbers are the places of tokens. -/
inductive Tree : Symbol → Type
  | joined {l : Level} (first : Tree (.operand l)) (more : Tree (.more l)) : Tree (.joined l)
  | product (d : Tree (.joined .product)) : Tree (.operand .sum)
  | factor (d : Tree .factor) : Tree (.operand .product)
  | done {l : Level} : Tree (.more l)
  | operator {l : Level} (op : String) (hop : op ∈ l.operators) (p : Nat)
      (right : Tree (.operand l)) (more : Tree (.more l)) : Tree (.more l)
  | parenthesized (p : Nat) (d : Tree (.joined .sum)) (q : Nat) : Tree .factor
  | negative (p : Nat) (digits : String) (q : Nat) : Tree .factor
  | number (digits : String) (p : Nat) : Tree .factor
  | string (text : String) (p : Nat) : Tree .factor
  | var (name : String) (hname : Text.startsUpper name = true) (p : Nat) : Tree .factor
  | constant (name : String) (hname : Text.startsUpper name = false) (p : Nat) : Tree .factor
  | applied (name : String) (hname : Text.startsUpper name = false) (p : Nat)
      (args : Tree .arguments) : Tree .factor
  | prefixed (op : String) (p : Nat) (args : Tree .arguments) : Tree .factor
  | noArguments (p q : Nat) : Tree .arguments
  | arguments (p : Nat) (first : Tree (.joined .sum)) (more : Tree .moreArguments) (q : Nat) :
      Tree .arguments
  | noMore : Tree .moreArguments
  | comma (p : Nat) (next : Tree (.joined .sum)) (more : Tree .moreArguments) : Tree .moreArguments

/-- An expression is a sum. -/
abbrev ExprTree : Type := Tree (.joined .sum)

/-- A name with arguments in parentheses, of which there may be none. -/
def nameApplied (name : String) : List Term → Term
  | [] => .atom name
  | args => .compound name args

namespace Tree

@[simp] def tokens : {s : Symbol} → Tree s → List Token
  | _, joined first more => first.tokens ++ more.tokens
  | _, product d => d.tokens
  | _, factor d => d.tokens
  | _, done => []
  | _, operator op _ p right more => ⟨.op, op, p⟩ :: (right.tokens ++ more.tokens)
  | _, parenthesized p d q => ⟨.punct, "(", p⟩ :: (d.tokens ++ [⟨.punct, ")", q⟩])
  | _, negative p digits q => [⟨.op, "-", p⟩, ⟨.number, digits, q⟩]
  | _, number digits p => [⟨.number, digits, p⟩]
  | _, string text p => [⟨.string, text, p⟩]
  | _, var name _ p => [⟨.name, name, p⟩]
  | _, constant name _ p => [⟨.name, name, p⟩]
  | _, applied name _ p args => ⟨.name, name, p⟩ :: args.tokens
  | _, prefixed op p args => ⟨.op, op, p⟩ :: args.tokens
  | _, noArguments p q => [⟨.punct, "(", p⟩, ⟨.punct, ")", q⟩]
  | _, arguments p first more q =>
    ⟨.punct, "(", p⟩ :: (first.tokens ++ (more.tokens ++ [⟨.punct, ")", q⟩]))
  | _, noMore => []
  | _, comma p next more => ⟨.punct, ",", p⟩ :: (next.tokens ++ more.tokens)

@[simp] def value : {s : Symbol} → Tree s → Option s.Meaning
  | _, joined first more => do return (← more.value) (← first.value)
  | _, product d => d.value
  | _, factor d => d.value
  | _, done => some id
  | _, operator op _ _ right more => do
    let rightValue ← right.value
    let join ← more.value
    return fun left => join (.compound op [left, rightValue])
  | _, parenthesized _ d _ => d.value
  | _, negative _ digits _ => (numeral true digits).toOption
  | _, number digits _ => (numeral false digits).toOption
  | _, string text _ => some (.str (stringValue text))
  | _, var name _ _ => some (.var name)
  | _, constant name _ _ => some (.atom name)
  | _, applied name _ _ args => args.value.map (nameApplied name)
  | _, prefixed op _ args => args.value.map (.compound ((relation? op).getD op))
  | _, noArguments _ _ => some []
  | _, arguments _ first more _ => do return (← first.value) :: (← more.value)
  | _, noMore => some []
  | _, comma _ next more => do return (← next.value) :: (← more.value)

end Tree

/-! ## Heads and goals -/

structure HeadTree where
  name : String
  hname : Text.startsUpper name = false
  p : Nat
  args : Option (Tree .arguments)

namespace HeadTree

def tokens (d : HeadTree) : List Token :=
  ⟨.name, d.name, d.p⟩ :: d.args.elim [] Tree.tokens

def value (d : HeadTree) : Option Fact :=
  match d.args with
  | none => some ⟨d.name, []⟩
  | some args => args.value.map (⟨d.name, ·⟩)

end HeadTree

/-- A relation symbol and what stands on its right. -/
structure RelationTree where
  symbol : Token
  predicate : String
  hkind : symbol.kind = .op ∨ symbol.kind = .name
  hsymbol : relation? symbol.text = some predicate
  right : ExprTree

def RelationTree.tokens (d : RelationTree) : List Token := d.symbol :: d.right.tokens

/-- Whether tokens start with a negation. -/
def negates : List Token → Bool
  | t :: next :: _ => t.kind == .name && t.text == "not" && next.kind == .name
  | _ => false

/-- A goal without its negation. -/
structure StatementTree where
  left : ExprTree
  relation : Option RelationTree

namespace StatementTree

def tokens (d : StatementTree) : List Token :=
  d.left.tokens ++ d.relation.elim [] RelationTree.tokens

def value (d : StatementTree) (negated : Bool) : Option Goal := do
  let left ← d.left.value
  match d.relation, left with
  | some r, left => return ⟨r.predicate, [left, ← r.right.value], negated⟩
  | none, .compound functor args => some ⟨functor, args, negated⟩
  | none, .atom name => some ⟨name, [], negated⟩
  | none, _ => none

end StatementTree

/-- The tokens of a goal with or without a negation. -/
def goalTokens (negation : Option Nat) (statement : StatementTree) : List Token :=
  negation.elim [] (fun p => [⟨.name, "not", p⟩]) ++ statement.tokens

structure GoalTree where
  negation : Option Nat
  statement : StatementTree
  hnegation : negates (goalTokens negation statement) = negation.isSome

namespace GoalTree

def tokens (d : GoalTree) : List Token := goalTokens d.negation d.statement

def value (d : GoalTree) : Option Goal := d.statement.value d.negation.isSome

end GoalTree

structure BodyTree where
  first : GoalTree
  more : List (Nat × GoalTree)

namespace BodyTree

def moreTokens (more : List (Nat × GoalTree)) : List Token :=
  more.flatMap fun (p, d) => ⟨.punct, ",", p⟩ :: d.tokens

def tokens (d : BodyTree) : List Token := d.first.tokens ++ moreTokens d.more

def value (d : BodyTree) : Option (List Goal) := do
  return (← d.first.value) :: (← d.more.mapM fun (_, d) => d.value)

end BodyTree

/-! ## Clauses, queries and programs -/

def periodTokens (period : Option Nat) : List Token :=
  period.elim [] fun p => [⟨.punct, ".", p⟩]

structure FactTree where
  head : HeadTree
  period : Option Nat

structure RuleTree where
  head : HeadTree
  neck : Nat
  body : BodyTree
  period : Option Nat

structure QueryTree where
  body : BodyTree
  period : Option Nat

inductive ClauseTree where
  | fact (head : HeadTree)
  | rule (head : HeadTree) (neck : Nat) (body : BodyTree)

structure ProgramTree where
  ended : List (ClauseTree × Nat)
  last : Option ClauseTree

namespace ClauseTree

def tokens : ClauseTree → List Token
  | fact head => head.tokens
  | rule head neck body => head.tokens ++ ⟨.neck, ":-", neck⟩ :: body.tokens

def value : ClauseTree → Option Clause
  | fact head => head.value.map .fact
  | rule head _ body => do return .rule ⟨← head.value, ← body.value⟩

end ClauseTree

/-- A start symbol of the grammar: its derivations, and the tokens and the value of each. -/
structure Start (α : Type) where
  Derivation : Type
  tokens : Derivation → List Token
  value : Derivation → Option α

namespace Start

variable {α : Type}

/-- The tokens derive the value. -/
def Derives (s : Start α) (ts : List Token) (v : α) : Prop :=
  ∃ d, s.tokens d = ts ∧ s.value d = some v

/-- No tokens have two derivations. -/
def Unambiguous (s : Start α) : Prop := Function.Injective s.tokens

def term : Start Term where
  Derivation := ExprTree
  tokens := Tree.tokens
  value := Tree.value

def fact : Start Fact where
  Derivation := FactTree
  tokens d := d.head.tokens ++ periodTokens d.period
  value d := d.head.value

def rule : Start Rule where
  Derivation := RuleTree
  tokens d := (ClauseTree.rule d.head d.neck d.body).tokens ++ periodTokens d.period
  value d := do return ⟨← d.head.value, ← d.body.value⟩

def query : Start (List Goal) where
  Derivation := QueryTree
  tokens d := d.body.tokens ++ periodTokens d.period
  value d := d.body.value

def program : Start (List Clause) where
  Derivation := ProgramTree
  tokens d := d.ended.flatMap (fun (c, p) => c.tokens ++ [⟨.punct, ".", p⟩]) ++
    d.last.elim [] ClauseTree.tokens
  value d :=
    do return (← d.ended.mapM fun (c, _) => c.value) ++ (← d.last.mapM ClauseTree.value).toList

end Start

end Clausal.Grammar
