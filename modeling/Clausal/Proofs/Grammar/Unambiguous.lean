import Clausal.Proofs.Grammar.Tree
import Mathlib.Tactic.Common

/-!
# The grammar is unambiguous

A syntax tree is read off its tokens, even when other tokens follow, as long as the first of them
could not belong to the tree. Which tokens could is decided by one token and by the symbol alone.
-/

namespace Clausal.Grammar

def isSymbol (symbol : String) (t : Token) : Bool := t.kind != .string && t.text == symbol

def isOperator (l : Level) (t : Token) : Bool := t.kind == .op && l.operators.contains t.text

/-- The tokens that go on with a chain of operands that could end before them. -/
def Level.continuedBy : Level → Token → Bool
  | sum, t => isSymbol "(" t || isOperator .product t || isOperator .sum t
  | product, t => isSymbol "(" t || isOperator .product t

namespace Symbol

/-- The tokens that go on with a symbol that could end before them. -/
def continuedBy : Symbol → Token → Bool
  | joined l, t | more l, t => l.continuedBy t
  | operand .sum, t => Level.product.continuedBy t
  | operand .product, t | factor, t => isSymbol "(" t
  | arguments, _ => false
  | moreArguments, t => isSymbol "," t || Level.sum.continuedBy t

/-- The symbol ends before these tokens. -/
def Stops (s : Symbol) (rest : List Token) : Prop := ∀ t ∈ rest.head?, s.continuedBy t = false

theorem stops_cons {s : Symbol} {t : Token} {rest : List Token} :
    s.Stops (t :: rest) ↔ s.continuedBy t = false := by
  simp [Stops]

theorem stops_arguments (rest : List Token) : arguments.Stops rest := fun _ _ => rfl

theorem stops_neck (p : Nat) (rest : List Token) : factor.Stops (⟨.neck, ":-", p⟩ :: rest) :=
  stops_cons.mpr rfl

end Symbol

namespace Tree

/-- The symbols that stand for terms. -/
theorem starts_of_term {s : Symbol} (d : Tree s) :
    match s with
    | .joined _ | .operand _ | .factor =>
      ∃ t ts, d.tokens = t :: ts ∧ (t.kind = .punct → t.text = "(")
    | _ => True := by
  induction d with
  | joined first more ih _ =>
      obtain ⟨t, ts, hfirst, ht⟩ := ih
      exact ⟨t, ts ++ more.tokens, by rw [tokens, hfirst, List.cons_append], ht⟩
  | product d ih | factor d ih => exact ih
  | parenthesized | negative | number | string | var | constant | applied | prefixed =>
      exact ⟨_, _, rfl, by simp⟩
  | done | operator | noArguments | arguments | noMore | comma => trivial

theorem starts (d : ExprTree) : ∃ t ts, d.tokens = t :: ts ∧ (t.kind = .punct → t.text = "(") :=
  d.starts_of_term

theorem continuedBy_operator {l : Level} {op : String} (hop : op ∈ l.operators) (p : Nat) :
    (Symbol.operand l).continuedBy ⟨.op, op, p⟩ = false ∧
      (Symbol.more l).continuedBy ⟨.op, op, p⟩ = true := by
  cases l with
  | sum | product =>
      simp only [Level.operators, List.mem_cons, List.not_mem_nil, or_false] at hop
      rcases hop with rfl | rfl <;> exact ⟨rfl, rfl⟩

theorem stops_operand {l : Level} (d : Tree (.more l)) {rest : List Token}
    (h : (Symbol.more l).Stops rest) : (Symbol.operand l).Stops (d.tokens ++ rest) := by
  cases d with
  | done =>
      intro t ht
      have hstop := h t ht
      cases l <;> simp_all [Symbol.continuedBy, Level.continuedBy]
  | operator op hop p right more =>
      exact Symbol.stops_cons.mpr (continuedBy_operator hop p).1

theorem stops_next (d : Tree .moreArguments) {rest : List Token}
    (h : Symbol.moreArguments.Stops rest) : (Symbol.joined .sum).Stops (d.tokens ++ rest) := by
  cases d with
  | noMore => exact fun t ht => (Bool.or_eq_false_iff.mp (h t ht)).2
  | comma p next more => exact Symbol.stops_cons.mpr rfl

theorem tokens_arguments (d : Tree .arguments) : ∃ p ts, d.tokens = ⟨.punct, "(", p⟩ :: ts := by
  cases d with
  | noArguments p q => exact ⟨p, _, rfl⟩
  | arguments p first more q => exact ⟨p, _, rfl⟩

theorem not_starts_number (d : Tree .arguments) {digits : String} {q : Nat}
    {rest rest' : List Token} :
    ⟨.number, digits, q⟩ :: rest ≠ d.tokens ++ rest' := by
  obtain ⟨p, ts, hd⟩ := d.tokens_arguments
  simp [hd]

theorem not_starts_closing (d : ExprTree) {q : Nat} {rest rest' : List Token} :
    ⟨.punct, ")", q⟩ :: rest ≠ d.tokens ++ rest' := by
  obtain ⟨t, ts, hd, ht⟩ := d.starts
  rintro h
  rw [hd, List.cons_append] at h
  obtain rfl := (List.cons.inj h).1
  simp at ht

theorem not_stops_factor (d : Tree .arguments) {rest : List Token} :
    ¬ Symbol.factor.Stops (d.tokens ++ rest) := by
  obtain ⟨p, ts, hd⟩ := d.tokens_arguments
  rw [hd, List.cons_append, Symbol.stops_cons]
  simp [Symbol.continuedBy, isSymbol]

/-- A tree and what follows it are determined by their tokens. -/
theorem eq_of_tokens_append {s : Symbol} (d d' : Tree s) {rest rest' : List Token}
    (h : d.tokens ++ rest = d'.tokens ++ rest') (hrest : s.Stops rest) (hrest' : s.Stops rest') :
    d = d' ∧ rest = rest' := by
  induction d generalizing rest rest' with
  | joined first more ihfirst ihmore =>
      cases d' with
      | joined first' more' =>
          rw [tokens, tokens, List.append_assoc, List.append_assoc] at h
          obtain ⟨rfl, hmore⟩ :=
            ihfirst first' h (stops_operand more hrest) (stops_operand more' hrest')
          obtain ⟨rfl, heq⟩ := ihmore more' hmore hrest hrest'
          exact ⟨rfl, heq⟩
  | product d ih =>
      cases d' with
      | product d' =>
          obtain ⟨rfl, heq⟩ := ih d' h hrest hrest'
          exact ⟨rfl, heq⟩
  | factor d ih =>
      cases d' with
      | factor d' =>
          obtain ⟨rfl, heq⟩ := ih d' h hrest hrest'
          exact ⟨rfl, heq⟩
  | done =>
      cases d' with
      | done => exact ⟨rfl, h⟩
      | operator op hop p right more =>
          obtain rfl : rest = _ := h
          rw [tokens, List.cons_append, Symbol.stops_cons, (continuedBy_operator hop p).2] at hrest
          simp at hrest
  | operator op hop p right more ihright ihmore =>
      cases d' with
      | done =>
          obtain rfl : _ = rest' := h
          rw [tokens, List.cons_append, Symbol.stops_cons, (continuedBy_operator hop p).2] at hrest'
          simp at hrest'
      | operator op' hop' p' right' more' =>
          simp only [tokens, List.cons_append, List.append_assoc, List.cons.injEq, Token.mk.injEq,
            true_and] at h
          obtain ⟨⟨rfl, rfl⟩, h⟩ := h
          obtain ⟨rfl, hmore⟩ :=
            ihright right' h (stops_operand more hrest) (stops_operand more' hrest')
          obtain ⟨rfl, heq⟩ := ihmore more' hmore hrest hrest'
          exact ⟨rfl, heq⟩
  | parenthesized p d q ih =>
      cases d' with
      | parenthesized p' d' q' =>
          simp only [tokens, List.cons_append, List.append_assoc, List.cons.injEq, Token.mk.injEq,
            true_and] at h
          obtain ⟨rfl, h⟩ := h
          obtain ⟨rfl, hclose⟩ := ih d' h (Symbol.stops_cons.mpr rfl) (Symbol.stops_cons.mpr rfl)
          obtain ⟨⟨rfl⟩, heq⟩ : _ ∧ rest = rest' := List.cons.inj hclose
          exact ⟨rfl, heq⟩
      | _ => cases (List.cons.inj h).1
  | negative p digits q =>
      cases d' with
      | negative p' digits' q' => cases h; exact ⟨rfl, rfl⟩
      | prefixed op' p' args' =>
          exact (args'.not_starts_number (List.cons.inj h).2).elim
      | _ => cases (List.cons.inj h).1
  | number digits p =>
      cases d' with
      | number digits' p' => cases h; exact ⟨rfl, rfl⟩
      | _ => cases (List.cons.inj h).1
  | string text p =>
      cases d' with
      | string text' p' => cases h; exact ⟨rfl, rfl⟩
      | _ => cases (List.cons.inj h).1
  | var name hname p =>
      cases d' with
      | var name' hname' p' => cases h; exact ⟨rfl, rfl⟩
      | constant name' hname' p' | applied name' hname' p' =>
          cases (List.cons.inj h).1
          exact absurd (hname.symm.trans hname') (by decide)
      | _ => cases (List.cons.inj h).1
  | constant name hname p =>
      cases d' with
      | var name' hname' p' =>
          cases (List.cons.inj h).1
          exact absurd (hname.symm.trans hname') (by decide)
      | constant name' hname' p' => cases h; exact ⟨rfl, rfl⟩
      | applied name' hname' p' args' =>
          obtain rfl : rest = args'.tokens ++ rest' := (List.cons.inj h).2
          exact (args'.not_stops_factor hrest).elim
      | _ => cases (List.cons.inj h).1
  | applied name hname p args ih =>
      cases d' with
      | var name' hname' p' =>
          cases (List.cons.inj h).1
          exact absurd (hname.symm.trans hname') (by decide)
      | constant name' hname' p' =>
          obtain rfl : args.tokens ++ rest = rest' := (List.cons.inj h).2
          exact (args.not_stops_factor hrest').elim
      | applied name' hname' p' args' =>
          simp only [tokens, List.cons_append, List.cons.injEq, Token.mk.injEq, true_and] at h
          obtain ⟨⟨rfl, rfl⟩, h⟩ := h
          obtain ⟨rfl, heq⟩ := ih args' h (Symbol.stops_arguments _) (Symbol.stops_arguments _)
          exact ⟨rfl, heq⟩
      | _ => cases (List.cons.inj h).1
  | prefixed op p args ih =>
      cases d' with
      | negative p' digits' q' =>
          exact (args.not_starts_number (List.cons.inj h).2.symm).elim
      | prefixed op' p' args' =>
          simp only [tokens, List.cons_append, List.cons.injEq, Token.mk.injEq, true_and] at h
          obtain ⟨⟨rfl, rfl⟩, h⟩ := h
          obtain ⟨rfl, heq⟩ := ih args' h (Symbol.stops_arguments _) (Symbol.stops_arguments _)
          exact ⟨rfl, heq⟩
      | _ => cases (List.cons.inj h).1
  | noArguments p q =>
      cases d' with
      | noArguments p' q' => cases h; exact ⟨rfl, rfl⟩
      | arguments p' first' more' q' =>
          simp only [tokens, List.cons_append, List.append_assoc, List.cons.injEq] at h
          exact (first'.not_starts_closing h.2).elim
  | arguments p first more q ihfirst ihmore =>
      cases d' with
      | noArguments p' q' =>
          simp only [tokens, List.cons_append, List.append_assoc, List.cons.injEq] at h
          exact (first.not_starts_closing h.2.symm).elim
      | arguments p' first' more' q' =>
          simp only [tokens, List.cons_append, List.append_assoc, List.nil_append, List.cons.injEq,
            Token.mk.injEq, true_and] at h
          obtain ⟨rfl, h⟩ := h
          obtain ⟨rfl, hmore⟩ := ihfirst first' h (stops_next more (Symbol.stops_cons.mpr rfl))
            (stops_next more' (Symbol.stops_cons.mpr rfl))
          obtain ⟨rfl, hclose⟩ := ihmore more' hmore (Symbol.stops_cons.mpr rfl)
            (Symbol.stops_cons.mpr rfl)
          obtain ⟨⟨rfl⟩, heq⟩ : _ ∧ rest = rest' := List.cons.inj hclose
          exact ⟨rfl, heq⟩
  | noMore =>
      cases d' with
      | noMore => exact ⟨rfl, h⟩
      | comma p next more =>
          obtain rfl : rest = _ := h
          exact absurd (Symbol.stops_cons.mp hrest) (by simp [Symbol.continuedBy, isSymbol])
  | comma p next more ihnext ihmore =>
      cases d' with
      | noMore =>
          obtain rfl : _ = rest' := h
          exact absurd (Symbol.stops_cons.mp hrest') (by simp [Symbol.continuedBy, isSymbol])
      | comma p' next' more' =>
          simp only [tokens, List.cons_append, List.append_assoc, List.cons.injEq, Token.mk.injEq,
            true_and] at h
          obtain ⟨rfl, h⟩ := h
          obtain ⟨rfl, hmore⟩ := ihnext next' h (stops_next more hrest) (stops_next more' hrest')
          obtain ⟨rfl, heq⟩ := ihmore more' hmore hrest hrest'
          exact ⟨rfl, heq⟩

end Tree

/-! ## Heads and goals -/

namespace HeadTree

/-- A head is also a factor. -/
def tree (d : HeadTree) : Tree .factor :=
  match d.args with
  | none => .constant d.name d.hname d.p
  | some args => .applied d.name d.hname d.p args

theorem tokens_tree (d : HeadTree) : d.tree.tokens = d.tokens := by
  obtain ⟨name, hname, p, _ | args⟩ := d <;> rfl

theorem tree_injective : Function.Injective tree := by
  rintro ⟨name, hname, p, _ | args⟩ ⟨name', hname', p', _ | args'⟩ h <;> cases h <;> rfl

theorem eq_of_tokens_append {d d' : HeadTree} {rest rest' : List Token}
    (h : d.tokens ++ rest = d'.tokens ++ rest') (hrest : Symbol.factor.Stops rest)
    (hrest' : Symbol.factor.Stops rest') : d = d' ∧ rest = rest' := by
  rw [← tokens_tree, ← tokens_tree] at h
  obtain ⟨htree, heq⟩ := Tree.eq_of_tokens_append _ _ h hrest hrest'
  exact ⟨tree_injective htree, heq⟩

end HeadTree

/-- No tokens, or tokens that start with punctuation other than the given one. -/
def EndsBefore (others : List String) (rest : List Token) : Prop :=
  ∀ t ∈ rest.head?, t.kind = .punct ∧ t.text ∉ others

namespace EndsBefore

variable {others : List String} {rest : List Token}

theorem nil : EndsBefore others [] := by simp [EndsBefore]

theorem cons {symbol : String} {p : Nat} (h : symbol ∉ others) :
    EndsBefore others (⟨.punct, symbol, p⟩ :: rest) := by
  simp [EndsBefore, h]

theorem mono {others' : List String} (h : EndsBefore others rest) (hsub : others' ⊆ others) :
    EndsBefore others' rest :=
  fun t ht => ⟨(h t ht).1, fun hmem => (h t ht).2 (hsub hmem)⟩

theorem stops_sum (h : EndsBefore ["("] rest) : (Symbol.joined .sum).Stops rest := by
  intro t ht
  obtain ⟨hkind, htext⟩ := h t ht
  simp_all [Symbol.continuedBy, Level.continuedBy, isSymbol, isOperator]

theorem stops_factor (h : EndsBefore ["("] rest) : Symbol.factor.Stops rest := by
  intro t ht
  obtain ⟨_, htext⟩ := h t ht
  simp_all [Symbol.continuedBy, isSymbol]

end EndsBefore

theorem mem_of_relation? {symbol predicate : String} (h : relation? symbol = some predicate) :
    symbol ∈ ["=", "<", ">", "<=", "=<", ">=", "is"] := by
  rw [relation?.eq_def] at h
  split at h <;> simp_all

theorem RelationTree.continuedBy_symbol (d : RelationTree) :
    (Symbol.joined .sum).continuedBy d.symbol = false := by
  have hmem : d.symbol.text ∈ ["=", "<", ">", "<=", "=<", ">=", "is"] := mem_of_relation? d.hsymbol
  have hother : ∀ text ∈ ["=", "<", ">", "<=", "=<", ">=", "is"],
      text ≠ "(" ∧ text ∉ Level.product.operators ∧ text ∉ Level.sum.operators := by decide
  obtain ⟨hopen, hproduct, hsum⟩ := hother _ hmem
  simp [Symbol.continuedBy, Level.continuedBy, isSymbol, isOperator, hopen, hproduct, hsum]

/-- What follows a goal is no part of a negation. -/
theorem negates_append {ts rest : List Token} (hts : ts ≠ []) (hrest : EndsBefore ["("] rest) :
    negates (ts ++ rest) = negates ts := by
  match ts, hts with
  | t :: u :: ts, _ => rfl
  | [t], _ =>
      cases rest with
      | nil => rfl
      | cons u rest =>
          have hkind : u.kind = .punct := (hrest u rfl).1
          simp [negates, hkind]

theorem stops_relation (relation : Option RelationTree) {rest : List Token}
    (hrest : EndsBefore ["("] rest) :
    (Symbol.joined .sum).Stops (relation.elim [] RelationTree.tokens ++ rest) := by
  cases relation with
  | none => exact hrest.stops_sum
  | some r => exact Symbol.stops_cons.mpr r.continuedBy_symbol

theorem RelationTree.eq_of_tokens_append {d d' : RelationTree} {rest rest' : List Token}
    (h : d.tokens ++ rest = d'.tokens ++ rest') (hrest : EndsBefore ["("] rest)
    (hrest' : EndsBefore ["("] rest') : d = d' ∧ rest = rest' := by
  obtain ⟨symbol, predicate, hkind, hsymbol, right⟩ := d
  obtain ⟨symbol', predicate', hkind', hsymbol', right'⟩ := d'
  obtain ⟨rfl, hright⟩ := List.cons.inj h
  obtain rfl : predicate = predicate' := Option.some.inj (hsymbol.symm.trans hsymbol')
  obtain ⟨rfl, heq⟩ := Tree.eq_of_tokens_append _ _ hright hrest.stops_sum hrest'.stops_sum
  exact ⟨rfl, heq⟩

/-- Punctuation is no relation symbol. -/
theorem RelationTree.not_endsBefore (d : RelationTree) {others : List String} {rest : List Token} :
    ¬ EndsBefore others (d.tokens ++ rest) := by
  intro h
  have hpunct : d.symbol.kind = .punct := (h d.symbol rfl).1
  have hkind := d.hkind
  simp [hpunct] at hkind

theorem relation_eq_of_tokens_append {relation relation' : Option RelationTree}
    {rest rest' : List Token} (h : relation.elim [] RelationTree.tokens ++ rest =
      relation'.elim [] RelationTree.tokens ++ rest')
    (hrest : EndsBefore ["("] rest) (hrest' : EndsBefore ["("] rest') :
    relation = relation' ∧ rest = rest' := by
  match relation, relation' with
  | none, none => exact ⟨rfl, h⟩
  | none, some r =>
      obtain rfl : rest = r.tokens ++ rest' := h
      exact (r.not_endsBefore hrest).elim
  | some r, none =>
      obtain rfl : r.tokens ++ rest = rest' := h
      exact (r.not_endsBefore hrest').elim
  | some r, some r' =>
      obtain ⟨rfl, heq⟩ := RelationTree.eq_of_tokens_append h hrest hrest'
      exact ⟨rfl, heq⟩

namespace StatementTree

theorem tokens_ne_nil (d : StatementTree) : d.tokens ≠ [] := by
  obtain ⟨t, ts, hleft, _⟩ := d.left.starts
  simp [tokens, hleft]

theorem eq_of_tokens_append {d d' : StatementTree} {rest rest' : List Token}
    (h : d.tokens ++ rest = d'.tokens ++ rest') (hrest : EndsBefore ["("] rest)
    (hrest' : EndsBefore ["("] rest') : d = d' ∧ rest = rest' := by
  obtain ⟨left, relation⟩ := d
  obtain ⟨left', relation'⟩ := d'
  rw [tokens, tokens, List.append_assoc, List.append_assoc] at h
  obtain ⟨rfl, hrelation⟩ := Tree.eq_of_tokens_append _ _ h (stops_relation relation hrest)
    (stops_relation relation' hrest')
  obtain ⟨rfl, heq⟩ := relation_eq_of_tokens_append hrelation hrest hrest'
  exact ⟨rfl, heq⟩

end StatementTree

namespace GoalTree

theorem tokens_ne_nil (d : GoalTree) : d.tokens ≠ [] := by
  simp [tokens, goalTokens, d.statement.tokens_ne_nil]

theorem eq_of_tokens_append {d d' : GoalTree} {rest rest' : List Token}
    (h : d.tokens ++ rest = d'.tokens ++ rest') (hrest : EndsBefore ["("] rest)
    (hrest' : EndsBefore ["("] rest') : d = d' ∧ rest = rest' := by
  have hsome : d.negation.isSome = d'.negation.isSome :=
    calc d.negation.isSome = negates d.tokens := d.hnegation.symm
      _ = negates (d.tokens ++ rest) := (negates_append d.tokens_ne_nil hrest).symm
      _ = negates (d'.tokens ++ rest') := by rw [h]
      _ = negates d'.tokens := negates_append d'.tokens_ne_nil hrest'
      _ = d'.negation.isSome := d'.hnegation
  obtain ⟨negation, statement, hd⟩ := d
  obtain ⟨negation', statement', hd'⟩ := d'
  simp only [tokens, goalTokens, List.append_assoc] at h
  obtain ⟨rfl, hstatement⟩ : negation = negation' ∧
      statement.tokens ++ rest = statement'.tokens ++ rest' := by
    match negation, negation' with
    | none, none => exact ⟨rfl, h⟩
    | some p, some p' =>
        obtain ⟨hp, hstatement⟩ := List.cons.inj h
        exact ⟨by rw [(Token.mk.inj hp).2.2], hstatement⟩
    | none, some p' | some p, none => simp at hsome
  obtain ⟨rfl, heq⟩ := StatementTree.eq_of_tokens_append hstatement hrest hrest'
  exact ⟨rfl, heq⟩

end GoalTree

/-! ## Clauses, queries and programs -/

namespace BodyTree

theorem endsBefore_moreTokens (more : List (Nat × GoalTree)) {rest : List Token}
    (hrest : EndsBefore ["(", ","] rest) : EndsBefore ["("] (moreTokens more ++ rest) := by
  cases more with
  | nil => exact hrest.mono (by simp)
  | cons head more => exact .cons (by decide)

theorem not_endsBefore_moreTokens {head : Nat × GoalTree} {more : List (Nat × GoalTree)}
    {rest : List Token} : ¬ EndsBefore ["(", ","] (moreTokens (head :: more) ++ rest) :=
  fun h => (h ⟨.punct, ",", head.1⟩ rfl).2 (by simp)

theorem more_eq_of_tokens_append {more more' : List (Nat × GoalTree)} {rest rest' : List Token}
    (h : moreTokens more ++ rest = moreTokens more' ++ rest') (hrest : EndsBefore ["(", ","] rest)
    (hrest' : EndsBefore ["(", ","] rest') : more = more' ∧ rest = rest' := by
  induction more generalizing more' with
  | nil =>
      cases more' with
      | nil => exact ⟨rfl, h⟩
      | cons head' more' =>
          obtain rfl : rest = _ := h
          exact (not_endsBefore_moreTokens hrest).elim
  | cons head more ih =>
      cases more' with
      | nil =>
          obtain rfl : _ = rest' := h
          exact (not_endsBefore_moreTokens hrest').elim
      | cons head' more' =>
          obtain ⟨p, d⟩ := head
          obtain ⟨p', d'⟩ := head'
          simp only [moreTokens, List.flatMap_cons, List.cons_append, List.append_assoc,
            List.cons.injEq, Token.mk.injEq, true_and] at h
          obtain ⟨rfl, hgoals⟩ := h
          obtain ⟨rfl, hmore⟩ := GoalTree.eq_of_tokens_append hgoals
            (endsBefore_moreTokens more hrest) (endsBefore_moreTokens more' hrest')
          obtain ⟨rfl, heq⟩ := ih hmore
          exact ⟨rfl, heq⟩

theorem eq_of_tokens_append {d d' : BodyTree} {rest rest' : List Token}
    (h : d.tokens ++ rest = d'.tokens ++ rest') (hrest : EndsBefore ["(", ","] rest)
    (hrest' : EndsBefore ["(", ","] rest') : d = d' ∧ rest = rest' := by
  obtain ⟨first, more⟩ := d
  obtain ⟨first', more'⟩ := d'
  rw [tokens, tokens, List.append_assoc, List.append_assoc] at h
  obtain ⟨rfl, hmore⟩ := GoalTree.eq_of_tokens_append h (endsBefore_moreTokens more hrest)
    (endsBefore_moreTokens more' hrest')
  obtain ⟨rfl, heq⟩ := more_eq_of_tokens_append hmore hrest hrest'
  exact ⟨rfl, heq⟩

end BodyTree

namespace ClauseTree

/-- The neck and the body of a clause. -/
def tail : ClauseTree → List Token
  | fact _ => []
  | rule _ neck body => ⟨.neck, ":-", neck⟩ :: body.tokens

def head : ClauseTree → HeadTree
  | fact head | rule head _ _ => head

theorem tokens_eq (d : ClauseTree) : d.tokens = d.head.tokens ++ d.tail := by
  cases d with
  | fact head => exact (List.append_nil _).symm
  | rule head neck body => rfl

theorem stops_tail (d : ClauseTree) {rest : List Token} (hrest : EndsBefore ["(", ","] rest) :
    Symbol.factor.Stops (d.tail ++ rest) := by
  cases d with
  | fact head => exact (hrest.mono (by simp)).stops_factor
  | rule head neck body => exact Symbol.stops_neck _ _

theorem eq_of_tokens_append {d d' : ClauseTree} {rest rest' : List Token}
    (h : d.tokens ++ rest = d'.tokens ++ rest') (hrest : EndsBefore ["(", ","] rest)
    (hrest' : EndsBefore ["(", ","] rest') : d = d' ∧ rest = rest' := by
  have hneck : ∀ p (rest : List Token), ¬ EndsBefore ["(", ","] (⟨.neck, ":-", p⟩ :: rest) :=
    fun p rest hends => by simpa using (hends _ rfl).1
  rw [tokens_eq, tokens_eq, List.append_assoc, List.append_assoc] at h
  obtain ⟨hhead, htail⟩ :=
    HeadTree.eq_of_tokens_append h (d.stops_tail hrest) (d'.stops_tail hrest')
  match d, d' with
  | fact head, fact head' =>
      obtain rfl : head = head' := hhead
      exact ⟨rfl, htail⟩
  | fact head, rule head' neck' body' =>
      obtain rfl : rest = _ := htail
      exact (hneck _ _ hrest).elim
  | rule head neck body, fact head' =>
      obtain rfl : _ = rest' := htail
      exact (hneck _ _ hrest').elim
  | rule head neck body, rule head' neck' body' =>
      obtain rfl : head = head' := hhead
      obtain ⟨hneck, hbody⟩ := List.cons.inj htail
      obtain rfl : neck = neck' := (Token.mk.inj hneck).2.2
      obtain ⟨rfl, heq⟩ := BodyTree.eq_of_tokens_append hbody hrest hrest'
      exact ⟨rfl, heq⟩

end ClauseTree

theorem endsBefore_periodTokens (period : Option Nat) :
    EndsBefore ["(", ","] (periodTokens period) := by
  cases period with
  | none => exact .nil
  | some p => exact .cons (by decide)

theorem periodTokens_injective : Function.Injective periodTokens := by
  rintro (_ | p) (_ | p') h <;> cases h <;> rfl

/-- A clause without a period is not one with a period. -/
theorem ClauseTree.ne_cons_of_last {last : Option ClauseTree} {d : ClauseTree} {p : Nat}
    {rest : List Token} : last.elim [] tokens ≠ d.tokens ++ ⟨.punct, ".", p⟩ :: rest := by
  intro h
  cases last with
  | none =>
      rw [tokens_eq] at h
      cases h
  | some d' =>
      have heq : d'.tokens ++ [] = d.tokens ++ ⟨.punct, ".", p⟩ :: rest := by simpa using h
      cases (eq_of_tokens_append heq .nil (.cons (by decide))).2

theorem ClauseTree.last_injective :
    Function.Injective fun last : Option ClauseTree => last.elim [] tokens := by
  intro last last' h
  match last, last' with
  | none, none => rfl
  | some d, some d' =>
      have heq : d.tokens ++ [] = d'.tokens ++ [] := by simpa using h
      rw [(eq_of_tokens_append heq .nil .nil).1]
  | none, some d | some d, none =>
      simp only [Option.elim, tokens_eq] at h
      cases h

namespace Start

theorem unambiguous_term : term.Unambiguous := by
  intro d d' h
  have hends : (Symbol.joined .sum).Stops [] := EndsBefore.nil.stops_sum
  have heq : Tree.tokens d ++ [] = Tree.tokens d' ++ [] := congrArg (· ++ []) h
  exact (Tree.eq_of_tokens_append d d' heq hends hends).1

theorem unambiguous_fact : fact.Unambiguous := by
  rintro ⟨head, period⟩ ⟨head', period'⟩ h
  have heq : (ClauseTree.fact head).tokens ++ periodTokens period =
      (ClauseTree.fact head').tokens ++ periodTokens period' := h
  obtain ⟨⟨⟩, hperiod⟩ := ClauseTree.eq_of_tokens_append heq (endsBefore_periodTokens period)
    (endsBefore_periodTokens period')
  obtain rfl : period = period' := periodTokens_injective hperiod
  rfl

theorem unambiguous_rule : rule.Unambiguous := by
  rintro ⟨head, neck, body, period⟩ ⟨head', neck', body', period'⟩ h
  obtain ⟨⟨⟩, hperiod⟩ := ClauseTree.eq_of_tokens_append h (endsBefore_periodTokens period)
    (endsBefore_periodTokens period')
  obtain rfl : period = period' := periodTokens_injective hperiod
  rfl

theorem unambiguous_query : query.Unambiguous := by
  rintro ⟨body, period⟩ ⟨body', period'⟩ h
  obtain ⟨rfl, hperiod⟩ := BodyTree.eq_of_tokens_append h (endsBefore_periodTokens period)
    (endsBefore_periodTokens period')
  obtain rfl : period = period' := periodTokens_injective hperiod
  rfl

theorem unambiguous_program : program.Unambiguous := by
  rintro ⟨ended, last⟩ ⟨ended', last'⟩ h
  simp only [program] at h
  induction ended generalizing ended' with
  | nil =>
      cases ended' with
      | nil => rw [ClauseTree.last_injective h]
      | cons head' ended' =>
          simp only [List.flatMap_nil, List.flatMap_cons, List.nil_append, List.append_assoc] at h
          exact (ClauseTree.ne_cons_of_last h).elim
  | cons head ended ih =>
      obtain ⟨d, p⟩ := head
      cases ended' with
      | nil =>
          simp only [List.flatMap_nil, List.flatMap_cons, List.nil_append, List.append_assoc] at h
          exact (ClauseTree.ne_cons_of_last h.symm).elim
      | cons head' ended' =>
          obtain ⟨d', p'⟩ := head'
          simp only [List.flatMap_cons, List.append_assoc] at h
          obtain ⟨rfl, hmore⟩ := ClauseTree.eq_of_tokens_append h (.cons (by decide))
            (.cons (by decide))
          obtain ⟨hp, hended⟩ := List.cons.inj hmore
          obtain rfl : p = p' := (Token.mk.inj hp).2.2
          cases ih ended' hended
          rfl

end Start

end Clausal.Grammar
