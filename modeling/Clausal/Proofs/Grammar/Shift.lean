import Clausal.Proofs.Grammar.Soundness

/-!
# Parsing further on in a text

Parsers look at the kinds and texts of tokens, and at places only to tell where they fail. So tokens
that stand some places further on are read in the same way, and a fault moves with them. At the same
time the bounds on nesting and on rounds are compared: any two bounds that are not smaller than the
number of tokens give the same outcome, since every round and every nesting takes a token.
-/

namespace Clausal

/-- The token some places further on. -/
def Token.shift (k : Nat) (t : Token) : Token := { t with pos := k + t.pos }

/-- The fault some places further on. -/
def ParseFault.shift (k : Nat) : ParseFault → ParseFault
  | unexpectedChar c p => unexpectedChar c (k + p)
  | unexpected wanted found p => unexpected wanted found (k + p)
  | notGoal t p => notGoal t (k + p)
  | missingNeck => missingNeck
  | emptyQuery => emptyQuery

/-- The fault some places further on, if it has a place. -/
def Fault.shift (k : Nat) : Fault → Fault
  | parse cause => parse (cause.shift k)
  | e => e

@[simp] theorem ParseFault.position?_shift (k : Nat) (cause : ParseFault) :
    (cause.shift k).position? = cause.position?.map (k + ·) := by
  cases cause <;> rfl

@[simp] theorem Token.shift_zero : Token.shift 0 = id := by
  funext t
  simp [shift]

@[simp] theorem Fault.shift_zero : Fault.shift 0 = id := by
  funext e
  cases e with
  | parse cause => cases cause <;> simp [shift, ParseFault.shift]
  | _ => rfl

namespace Grammar

/-- The outcome some places further on. -/
def shifted {α : Type} (k : Nat) : Except Fault (α × List Token) → Except Fault (α × List Token)
  | .ok (v, rest) => .ok (v, rest.map (Token.shift k))
  | .error e => .error (e.shift k)

section Tokens

variable (k : Nat) (ts : List Token)

@[simp] theorem startsWith_shift (symbol : String) :
    startsWith symbol (ts.map (Token.shift k)) = startsWith symbol ts := by
  cases ts <;> rfl

@[simp] theorem startsWithKind_shift (kind : TokenKind) :
    startsWithKind kind (ts.map (Token.shift k)) = startsWithKind kind ts := by
  cases ts <;> rfl

@[simp] theorem negates_shift : negates (ts.map (Token.shift k)) = negates ts := by
  match ts with
  | [] | [_] | _ :: _ :: _ => rfl

@[simp] theorem relationAhead?_shift :
    relationAhead? (ts.map (Token.shift k)) = relationAhead? ts := by
  match ts with
  | [] => rfl
  | ⟨kind, text, p⟩ :: rest => cases kind <;> rfl

@[simp] theorem startOf_shift (stop : Nat) :
    startOf (k + stop) (ts.map (Token.shift k)) = k + startOf stop ts := by
  cases ts <;> rfl

@[simp] theorem unexpected_eq_shifted {α : Type} (wanted : Expectation) (stop : Nat) :
    unexpected wanted (k + stop) (ts.map (Token.shift k)) =
      shifted (α := α) k (unexpected wanted stop ts) := by
  cases ts <;> rfl

theorem numeral_eq_shifted (negative : Bool) (digits : String) :
    (numeral negative digits).map (·, ts.map (Token.shift k)) =
      shifted k ((numeral negative digits).map (·, ts)) := by
  cases h : numeral negative digits with
  | ok v => rfl
  | error e =>
      obtain ⟨_, _, rfl⟩ := of_numeral_eq_error h
      rfl

end Tokens

/-- On up to `n` tokens the second parser does what the first one does, `k` places further on. -/
def Follows {α : Type} (k n : Nat) (parser parser' : Parser α) : Prop :=
  ∀ stop ts, Proper ts → ts.length ≤ n →
    parser' (k + stop) (ts.map (Token.shift k)) = shifted k (parser stop ts)

section Follows

variable {α : Type} {P : α → List Token → Prop} {k n : Nat} {parser parser' : Parser α} {stop : Nat}
  {ts : List Token}

theorem Follows.mono {m : Nat} (h : Follows k n parser parser') (hm : m ≤ n) :
    Follows k m parser parser' :=
  fun stop ts hts hlen => h stop ts hts (Nat.le_trans hlen hm)

/-- Both parsers fail, or both go on behind the same tokens. -/
theorem Follows.cases (h : Follows k n parser parser') (hts : Proper ts) (hn : ts.length ≤ n)
    (hreads : Reads P stop ts (parser stop ts)) :
    (∃ e, parser stop ts = .error e ∧
      parser' (k + stop) (ts.map (Token.shift k)) = .error (e.shift k)) ∨
    ∃ v used rest, ts = used ++ rest ∧ parser stop ts = .ok (v, rest) ∧
      parser' (k + stop) (ts.map (Token.shift k)) = .ok (v, rest.map (Token.shift k)) ∧
      P v used := by
  rw [h stop ts hts hn]
  rcases hreads.cases with ⟨e, hr, _⟩ | ⟨v, used, rest, hr, hused, hv⟩
  · exact .inl ⟨e, hr, by rw [hr]; rfl⟩
  · exact .inr ⟨v, used, rest, hused, hr, by rw [hr]; rfl, hv⟩

/-- In the same place both parsers do the same. -/
theorem Follows.eq (h : Follows 0 n parser parser') (hts : Proper ts) (hn : ts.length ≤ n) :
    parser' stop ts = parser stop ts := by
  have hzero := h stop ts hts hn
  rw [Nat.zero_add, Token.shift_zero, List.map_id] at hzero
  rw [hzero]
  match parser stop ts with
  | .ok (v, rest) => simp [shifted]
  | .error e => simp [shifted]

end Follows

theorem follows_expect (k n : Nat) (symbol : String) :
    Follows k n (expect symbol) (expect symbol) := by
  intro stop ts _ _
  rw [expect, expect, startsWith_shift]
  split
  · rw [← List.map_drop]
    rfl
  · exact unexpected_eq_shifted k ts _ stop

/-! ## Expressions -/

theorem exists_of_startsWithKind {kind : TokenKind} {ts : List Token}
    (h : startsWithKind kind ts = true) :
    ∃ text p rest, ts = ⟨kind, text, p⟩ :: rest := by
  match ts with
  | ⟨kind', text, p⟩ :: rest =>
      obtain rfl : kind' = kind := by simpa [startsWithKind] using h
      exact ⟨text, p, rest, rfl⟩

/-- An operator that is not the sign of a number needs arguments. -/
theorem factor_operator {expr : Parser Term} {op : String} {p stop : Nat} {ts : List Token}
    (h : ¬ (op = "-" ∧ startsWithKind .number ts = true)) :
    factor expr stop (⟨.op, op, p⟩ :: ts) =
      if startsWith "(" ts then prefixed expr op stop ts
      else unexpected .term stop (⟨.op, op, p⟩ :: ts) := by
  rw [factor]
  rintro digits q rest hminus rfl
  exact h ⟨by simpa using hminus, rfl⟩

section Expressions

variable {expr expr' : Parser Term} {k n : Nat}
  (hreads : ∀ stop ts, Proper ts → Reads (Symbol.joined .sum).Derives stop ts (expr stop ts))
  (hexpr : Follows k n expr expr')

include hreads hexpr

theorem follows_moreArguments {rounds rounds' : Nat} (h : n ≤ rounds) (h' : n ≤ rounds') :
    Follows k n (moreArguments expr rounds) (moreArguments expr' rounds') := by
  induction n generalizing rounds rounds' with
  | zero =>
      intro stop ts _ hts
      obtain rfl : ts = [] := List.length_eq_zero_iff.mp (Nat.le_zero.mp hts)
      cases rounds <;> cases rounds' <;> rfl
  | succ n ih =>
      obtain ⟨r, rfl⟩ : ∃ r, rounds = r + 1 := Nat.exists_eq_succ_of_ne_zero (by omega)
      obtain ⟨r', rfl⟩ : ∃ r, rounds' = r + 1 := Nat.exists_eq_succ_of_ne_zero (by omega)
      intro stop ts hts hn
      rw [moreArguments, moreArguments, startsWith_shift, ← List.map_drop]
      split
      · next hcomma =>
        obtain ⟨p, rest, rfl⟩ := exists_punct hts hcomma (by decide)
        simp only [List.drop_succ_cons, List.drop_zero, List.length_cons] at hn ⊢
        rcases hexpr.cases hts.tail (by omega) (hreads stop rest hts.tail) with
          ⟨e, hr, hr'⟩ | ⟨v, used, rest, rfl, hr, hr', _⟩
        · simp only [hr, hr']
          rfl
        · simp only [hr, hr']
          simp only [List.length_append] at hn
          have hmore : Follows k n (moreArguments expr r) (moreArguments expr' r') :=
            ih (hexpr.mono (Nat.le_succ n)) (by omega) (by omega)
          rcases hmore.cases hts.tail.right (by omega)
            (reads_moreArguments (hreads stop) r hts.tail.right) with
            ⟨e, hm, hm'⟩ | ⟨args, used', rest', rfl, hm, hm', _⟩
          · simp only [hm, hm']
            rfl
          · simp only [hm, hm']
            rfl
      · rfl

theorem follows_arguments : Follows k (n + 1) (arguments expr) (arguments expr') := by
  intro stop ts hts hn
  rw [arguments, arguments, startsWith_shift]
  split
  · next hopen =>
    obtain ⟨p, inner, rfl⟩ := exists_punct hts hopen (by decide)
    simp only [List.map_cons, List.drop_succ_cons, List.drop_zero, List.length_cons,
      startsWith_shift] at hn ⊢
    split
    · rw [← List.map_drop]
      rfl
    · rcases hexpr.cases hts.tail (by omega) (hreads stop inner hts.tail) with
        ⟨e, hr, hr'⟩ | ⟨v, used, rest, rfl, hr, hr', _⟩
      · simp only [hr, hr']
        rfl
      · simp only [hr, hr', List.length_map]
        simp only [List.length_append] at hn
        have hmore : Follows k rest.length (moreArguments expr rest.length)
            (moreArguments expr' rest.length) :=
          follows_moreArguments hreads (hexpr.mono (by omega)) (Nat.le_refl _) (Nat.le_refl _)
        rcases hmore.cases hts.tail.right (Nat.le_refl _)
          (reads_moreArguments (hreads stop) _ hts.tail.right) with
          ⟨e, hm, hm'⟩ | ⟨args, used', rest', rfl, hm, hm', _⟩
        · simp only [hm, hm']
          rfl
        · simp only [hm, hm']
          rcases (follows_expect k rest'.length ")").cases hts.tail.right.right (Nat.le_refl _)
            (reads_expect stop ")" hts.tail.right.right (by decide)) with
            ⟨e, hc, hc'⟩ | ⟨_, used'', rest'', rfl, hc, hc', _⟩
          · simp only [hc, hc']
            rfl
          · simp only [hc, hc']
            rfl
  · rfl

theorem follows_constant (name : String) :
    Follows k (n + 1) (constant expr name) (constant expr' name) := by
  intro stop ts hts hn
  rw [constant, constant]
  rcases (follows_arguments hreads hexpr).cases hts hn
    (reads_optionalArguments (hreads stop) hts) with
    ⟨e, hr, hr'⟩ | ⟨args, used, rest, rfl, hr, hr', _⟩
  · simp only [hr, hr']
    rfl
  · simp only [hr, hr']
    cases args <;> rfl

theorem follows_prefixed (symbol : String) :
    Follows k (n + 1) (prefixed expr symbol) (prefixed expr' symbol) := by
  intro stop ts hts hn
  rw [prefixed, prefixed]
  rcases (follows_arguments hreads hexpr).cases hts hn
    (reads_optionalArguments (hreads stop) hts) with
    ⟨e, hr, hr'⟩ | ⟨args, used, rest, rfl, hr, hr', _⟩
  · simp only [hr, hr']
    rfl
  · simp only [hr, hr']
    rfl

theorem follows_parenthesized : Follows k n (parenthesized expr) (parenthesized expr') := by
  intro stop ts hts hn
  rw [parenthesized, parenthesized]
  rcases hexpr.cases hts hn (hreads stop ts hts)
    with ⟨e, hr, hr'⟩ | ⟨v, used, rest, rfl, hr, hr', _⟩
  · simp only [hr, hr']
    rfl
  · simp only [hr, hr']
    rcases (follows_expect k rest.length ")").cases hts.right (Nat.le_refl _)
      (reads_expect stop ")" hts.right (by decide)) with
      ⟨e, hc, hc'⟩ | ⟨_, used', rest', rfl, hc, hc', _⟩
    · simp only [hc, hc']
      rfl
    · simp only [hc, hc']
      rfl

theorem follows_factor : Follows k (n + 1) (factor expr) (factor expr') := by
  intro stop ts hts hn
  cases ts with
  | nil => exact unexpected_eq_shifted k [] _ stop
  | cons t rest =>
      obtain ⟨kind, text, p⟩ := t
      have hunexpected := unexpected_eq_shifted (α := Term) k (⟨kind, text, p⟩ :: rest) .term stop
      have hrest : rest.length ≤ n := Nat.le_of_succ_le_succ hn
      unfold factor
      cases kind with
      | punct =>
          simp only [List.map_cons, Token.shift] at hunexpected ⊢
          split
          · exact follows_parenthesized hreads hexpr stop rest hts.tail hrest
          · exact hunexpected
      | number =>
          simp only [List.map_cons, Token.shift]
          exact numeral_eq_shifted k rest false text
      | string => rfl
      | name =>
          simp only [List.map_cons, Token.shift]
          split
          · rfl
          · exact follows_constant hreads hexpr text stop rest hts.tail (Nat.le_succ_of_le hrest)
      | op =>
          by_cases hnegative : text = "-" ∧ startsWithKind .number rest = true
          · obtain ⟨rfl, hnumber⟩ := hnegative
            obtain ⟨digits, q, rest, rfl⟩ := exists_of_startsWithKind hnumber
            exact numeral_eq_shifted k rest true digits
          · change factor expr' (k + stop) (⟨.op, text, k + p⟩ :: rest.map (Token.shift k)) =
              shifted k (factor expr stop (⟨.op, text, p⟩ :: rest))
            rw [factor_operator hnegative, factor_operator (by simpa using hnegative),
              startsWith_shift]
            split
            · exact follows_prefixed hreads hexpr text stop rest hts.tail (Nat.le_succ_of_le hrest)
            · exact hunexpected
      | neck => exact hunexpected

end Expressions

theorem follows_operands {l : Level} {operand operand' : Parser Term} {k n : Nat}
    (hreads : ∀ stop ts, Proper ts → Reads (Symbol.operand l).Derives stop ts (operand stop ts))
    (hoperand : Follows k n operand operand') {rounds rounds' : Nat} (h : n ≤ rounds)
    (h' : n ≤ rounds') (left : Term) :
    Follows k n (operands l.operators operand rounds left)
      (operands l.operators operand' rounds' left) := by
  induction n generalizing rounds rounds' left with
  | zero =>
      intro stop ts _ hts
      obtain rfl : ts = [] := List.length_eq_zero_iff.mp (Nat.le_zero.mp hts)
      cases rounds <;> cases rounds' <;> rfl
  | succ n ih =>
      obtain ⟨r, rfl⟩ : ∃ r, rounds = r + 1 := Nat.exists_eq_succ_of_ne_zero (by omega)
      obtain ⟨r', rfl⟩ : ∃ r, rounds' = r + 1 := Nat.exists_eq_succ_of_ne_zero (by omega)
      intro stop ts hts hn
      match ts with
      | [] => rfl
      | ⟨.op, op, p⟩ :: rest =>
          simp only [List.map_cons, Token.shift, operands, List.length_cons] at hn ⊢
          split
          · rcases hoperand.cases hts.tail (by omega) (hreads stop rest hts.tail) with
              ⟨e, hr, hr'⟩ | ⟨right, used, rest, rfl, hr, hr', _⟩
            · simp only [hr, hr']
              rfl
            · simp only [hr, hr']
              simp only [List.length_append] at hn
              exact ih (hoperand.mono (Nat.le_succ n)) (by omega)
                (by omega) _ stop rest hts.tail.right (by omega)
          · rfl
      | ⟨.name, _, _⟩ :: _ | ⟨.number, _, _⟩ :: _ | ⟨.string, _, _⟩ :: _ | ⟨.punct, _, _⟩ :: _
      | ⟨.neck, _, _⟩ :: _ => rfl

theorem follows_joined {l : Level} {operand operand' : Parser Term} {k n : Nat}
    (hreads : ∀ stop ts, Proper ts → Reads (Symbol.operand l).Derives stop ts (operand stop ts))
    (hoperand : Follows k n operand operand') :
    Follows k n (joined l.operators operand) (joined l.operators operand') := by
  intro stop ts hts hn
  rw [joined, joined]
  rcases hoperand.cases hts hn (hreads stop ts hts) with
    ⟨e, hr, hr'⟩ | ⟨left, used, rest, rfl, hr, hr', _⟩
  · simp only [hr, hr']
    rfl
  · simp only [hr, hr', List.length_map]
    simp only [List.length_append] at hn
    exact follows_operands hreads (hoperand.mono (by omega)) (Nat.le_refl _)
      (Nat.le_refl _) left stop rest hts.right (Nat.le_refl _)

/-- Around an expression in parentheses there is at least one token more. -/
theorem follows_sum {expr expr' : Parser Term} {k n : Nat}
    (hreads : ∀ stop ts, Proper ts → Reads (Symbol.joined .sum).Derives stop ts (expr stop ts))
    (hexpr : Follows k n expr expr') :
    Follows k (n + 1) (joined Level.sum.operators (joined Level.product.operators (factor expr)))
      (joined Level.sum.operators (joined Level.product.operators (factor expr'))) := by
  have hproduct : Follows k (n + 1) (joined Level.product.operators (factor expr))
      (joined Level.product.operators (factor expr')) :=
    follows_joined (fun stop ts hts => reads_productOperand (hreads stop) hts)
      (follows_factor hreads hexpr)
  exact follows_joined (fun stop ts hts => reads_sumOperand (hreads stop) hts) hproduct

/-- Parentheses nest less deep than there are tokens, so any two larger bounds do the same. -/
theorem follows_expressionWithin {k n depth depth' : Nat} (h : n < depth) (h' : n < depth') :
    Follows k n (expressionWithin depth) (expressionWithin depth') := by
  obtain ⟨d, rfl⟩ : ∃ d, depth = d + 1 := Nat.exists_eq_succ_of_ne_zero (by omega)
  obtain ⟨d', rfl⟩ : ∃ d, depth' = d + 1 := Nat.exists_eq_succ_of_ne_zero (by omega)
  induction n generalizing d d' with
  | zero =>
      intro stop ts _ hts
      obtain rfl : ts = [] := List.length_eq_zero_iff.mp (Nat.le_zero.mp hts)
      rfl
  | succ n ih =>
      obtain ⟨c, rfl⟩ : ∃ c, d = c + 1 := Nat.exists_eq_succ_of_ne_zero (by omega)
      obtain ⟨c', rfl⟩ : ∃ c, d' = c + 1 := Nat.exists_eq_succ_of_ne_zero (by omega)
      exact follows_sum (fun stop ts hts => reads_expressionWithin (c + 1) hts)
        (ih c (by omega) c' (by omega))

theorem follows_expression_of_lt {k n depth : Nat} (h : n < depth) :
    Follows k n (expressionWithin depth) expression := by
  intro stop ts hts hn
  rw [expression, List.length_map]
  exact follows_expressionWithin (by omega) (Nat.lt_succ_self _) stop ts hts (Nat.le_refl _)

theorem follows_expression (k n : Nat) : Follows k n expression expression :=
  fun stop ts hts _ => follows_expression_of_lt (Nat.lt_succ_self _) stop ts hts (Nat.le_refl _)

/-! ## Heads and goals -/

section Goals

variable (k n : Nat)

theorem follows_literal : Follows k n literal literal := by
  intro stop ts hts hn
  match ts with
  | [] => rfl
  | ⟨.name, name, p⟩ :: rest =>
      have hunexpected :=
        unexpected_eq_shifted (α := Fact) k (⟨.name, name, p⟩ :: rest) .lowercasePredicate
        stop
      simp only [List.map_cons, Token.shift, literal] at hunexpected ⊢
      split
      · exact hunexpected
      · have hargs := follows_arguments (fun stop ts hts => reads_expression stop hts)
          (follows_expression k rest.length)
        rcases hargs.cases hts.tail (Nat.le_succ _)
          (reads_optionalArguments (fun ts hts => reads_expression stop hts) hts.tail) with
          ⟨e, hr, hr'⟩ | ⟨args, used, rest, rfl, hr, hr', _⟩
        · simp only [hr, hr']
          rfl
        · simp only [hr, hr']
          rfl
  | ⟨.number, _, _⟩ :: _ | ⟨.string, _, _⟩ :: _ | ⟨.op, _, _⟩ :: _ | ⟨.punct, _, _⟩ :: _
  | ⟨.neck, _, _⟩ :: _ => rfl

theorem follows_relationOrLiteral (negated : Bool) :
    Follows k n (relationOrLiteral negated) (relationOrLiteral negated) := by
  intro stop ts hts hn
  rw [relationOrLiteral, relationOrLiteral]
  rcases (follows_expression k n).cases hts hn (reads_expression stop hts) with
    ⟨e, hr, hr'⟩ | ⟨left, used, rest, rfl, hr, hr', _⟩
  · simp only [hr, hr']
    rfl
  · simp only [hr, hr', relationAhead?_shift, startOf_shift]
    cases hrelation : relationAhead? rest with
    | none => cases left <;> rfl
    | some predicate =>
        obtain ⟨t, rest, rfl, _⟩ := exists_of_relationAhead? hrelation
        simp only [List.map_cons, List.drop_succ_cons, List.drop_zero]
        rcases (follows_expression k rest.length).cases hts.right.tail (Nat.le_refl _)
          (reads_expression stop hts.right.tail) with
          ⟨e, hr, hr'⟩ | ⟨right, used', rest', rfl, hr, hr', _⟩
        · simp only [hr, hr']
          rfl
        · simp only [hr, hr']
          rfl

theorem follows_goal : Follows k n goal goal := by
  intro stop ts hts hn
  rw [goal_eq, goal_eq, negates_shift]
  split
  · next hnot =>
    obtain ⟨p, next, rest, rfl, _⟩ := exists_of_negates hnot
    exact follows_relationOrLiteral k n true stop _ hts.tail (Nat.le_of_succ_le hn)
  · exact follows_relationOrLiteral k n false stop ts hts hn

variable {n}

theorem follows_moreGoals {rounds rounds' : Nat} (h : n ≤ rounds) (h' : n ≤ rounds') :
    Follows k n (moreGoals rounds) (moreGoals rounds') := by
  induction n generalizing rounds rounds' with
  | zero =>
      intro stop ts _ hts
      obtain rfl : ts = [] := List.length_eq_zero_iff.mp (Nat.le_zero.mp hts)
      cases rounds <;> cases rounds' <;> rfl
  | succ n ih =>
      obtain ⟨r, rfl⟩ : ∃ r, rounds = r + 1 := Nat.exists_eq_succ_of_ne_zero (by omega)
      obtain ⟨r', rfl⟩ : ∃ r, rounds' = r + 1 := Nat.exists_eq_succ_of_ne_zero (by omega)
      intro stop ts hts hn
      rw [moreGoals, moreGoals, startsWith_shift, ← List.map_drop]
      split
      · next hcomma =>
        obtain ⟨p, rest, rfl⟩ := exists_punct hts hcomma (by decide)
        simp only [List.drop_succ_cons, List.drop_zero, List.length_cons] at hn ⊢
        rcases (follows_goal k n).cases hts.tail (by omega) (reads_goal stop hts.tail) with
          ⟨e, hr, hr'⟩ | ⟨g, used, rest, rfl, hr, hr', _⟩
        · simp only [hr, hr']
          rfl
        · simp only [hr, hr']
          simp only [List.length_append] at hn
          have hmore : Follows k n (moreGoals r) (moreGoals r') := ih (by omega) (by omega)
          rcases hmore.cases hts.tail.right (by omega) (reads_moreGoals stop r hts.tail.right) with
            ⟨e, hm, hm'⟩ | ⟨gs, used', rest', rfl, hm, hm', _⟩
          · simp only [hm, hm']
            rfl
          · simp only [hm, hm']
            rfl
      · rfl

variable (n)

theorem follows_goalList : Follows k n goalList goalList := by
  intro stop ts hts hn
  rw [goalList, goalList]
  rcases (follows_goal k n).cases hts hn (reads_goal stop hts) with
    ⟨e, hr, hr'⟩ | ⟨g, used, rest, rfl, hr, hr', _⟩
  · simp only [hr, hr']
    rfl
  · simp only [hr, hr', List.length_map]
    rcases (follows_moreGoals k (Nat.le_refl rest.length) (Nat.le_refl _)).cases hts.right
      (Nat.le_refl _) (reads_moreGoals stop _ hts.right) with
      ⟨e, hm, hm'⟩ | ⟨gs, used', rest', rfl, hm, hm', _⟩
    · simp only [hm, hm']
      rfl
    · simp only [hm, hm']
      rfl

theorem follows_clause : Follows k n clause clause := by
  intro stop ts hts hn
  rw [clause, clause]
  rcases (follows_literal k n).cases hts hn (reads_literal stop hts) with
    ⟨e, hr, hr'⟩ | ⟨head, used, rest, rfl, hr, hr', _⟩
  · simp only [hr, hr']
    rfl
  · simp only [hr, hr', startsWith_shift]
    split
    · next hneck =>
      obtain ⟨p, rest, rfl⟩ := exists_neck hts.right hneck
      simp only [List.map_cons, List.drop_succ_cons, List.drop_zero]
      rcases (follows_goalList k rest.length).cases hts.right.tail (Nat.le_refl _)
        (reads_goalList stop hts.right.tail) with
        ⟨e, hg, hg'⟩ | ⟨goals, used', rest', rfl, hg, hg', _⟩
      · simp only [hg, hg']
        rfl
      · simp only [hg, hg']
        rfl
    · rfl

end Goals

/-- The clauses of tokens further on in a text, with any two bounds on the rounds. -/
theorem clauses_shift (k : Nat) {rounds rounds' stop : Nat} {ts : List Token} (hts : Proper ts)
    (h : ts.length ≤ rounds) (h' : ts.length ≤ rounds') :
    clauses rounds' (k + stop) (ts.map (Token.shift k)) =
      (clauses rounds stop ts).mapError (Fault.shift k) := by
  induction rounds generalizing rounds' ts with
  | zero =>
      obtain rfl : ts = [] := List.length_eq_zero_iff.mp (Nat.le_zero.mp h)
      cases rounds' <;> rfl
  | succ r ih =>
      cases rounds' with
      | zero =>
          obtain rfl : ts = [] := List.length_eq_zero_iff.mp (Nat.le_zero.mp h')
          rfl
      | succ r' =>
          rw [clauses, clauses, List.isEmpty_map]
          split
          · rfl
          · rcases (follows_clause k ts.length).cases hts (Nat.le_refl _)
              (reads_clause stop hts) with
              ⟨e, hr, hr'⟩ | ⟨c, used, rest, rfl, hr, hr', _⟩
            · simp only [hr, hr']
              rfl
            · simp only [hr, hr', List.isEmpty_map]
              split
              · rfl
              · rcases (follows_expect k rest.length ".").cases hts.right (Nat.le_refl _)
                  (reads_expect stop "." hts.right (by decide)) with
                  ⟨e, hp, hp'⟩ | ⟨_, _, rest', rfl, hp, hp', q, rfl⟩
                · simp only [hp, hp']
                  rfl
                · simp only [List.length_append, List.length_singleton] at h h'
                  simp only [hp, hp', ih hts.right.right (show rest'.length ≤ r by omega)
                    (show rest'.length ≤ r' by omega)]
                  cases clauses r stop rest' <;> rfl

end Grammar

end Clausal
