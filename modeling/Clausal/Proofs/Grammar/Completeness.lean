import Clausal.Proofs.Grammar.Soundness

/-!
# The parsers read all of the grammar

A parser that meets the tokens of a syntax tree takes exactly these tokens and returns the value of
the tree, as long as what follows does not go on with the tree.
-/

namespace Clausal

namespace Grammar

/-- The parser reads every tree of the symbol with at most so many tokens. -/
def Symbol.ReadBy (s : Symbol) (n : Nat) (parser : Parser s.Meaning) : Prop :=
  ∀ (d : Tree s) {v : s.Meaning} {rest : List Token}, d.tokens.length ≤ n → d.value = some v →
    Proper d.tokens → s.Stops rest → ∀ stop, parser stop (d.tokens ++ rest) = .ok (v, rest)

theorem startsWith_punct (symbol : String) (p : Nat) (rest : List Token) :
    startsWith symbol (⟨.punct, symbol, p⟩ :: rest) = true := by
  simp [startsWith]

theorem expect_punct (symbol : String) (p stop : Nat) (rest : List Token) :
    expect symbol stop (⟨.punct, symbol, p⟩ :: rest) = .ok ((), rest) := by
  rw [expect, if_pos (startsWith_punct symbol p rest)]
  rfl

theorem startsWith_eq_false {s : Symbol} {symbol : String} {rest : List Token} (h : s.Stops rest)
    (hs : ∀ t, s.continuedBy t = false → isSymbol symbol t = false) :
    startsWith symbol rest = false := by
  cases rest with
  | nil => rfl
  | cons t rest => exact hs t (Symbol.stops_cons.mp h)

theorem numeral_eq_ok {negative : Bool} {digits : String} {v : Term}
    (h : (numeral negative digits).toOption = some v) : numeral negative digits = .ok v := by
  cases hr : numeral negative digits with
  | error e => simp [hr, Except.toOption] at h
  | ok v' => simpa [hr, Except.toOption] using h

theorem Tree.not_startsWith_closing (d : ExprTree) (hd : Proper d.tokens) (rest : List Token) :
    startsWith ")" (d.tokens ++ rest) = false := by
  obtain ⟨t, ts, htokens, ht⟩ := d.starts
  rw [htokens] at hd ⊢
  refine Bool.eq_false_iff.mpr fun h => ?_
  have htext : t.text = ")" := by simp_all [startsWith]
  have hkind : t.kind = .punct := (hd t List.mem_cons_self).punct (by simp [htext])
  simp [htext, hkind] at ht

section Factors

variable {expr : Parser Term} {n : Nat} (hexpr : (Symbol.joined .sum).ReadBy n expr)
include hexpr

theorem moreArguments_eq : (d : Tree .moreArguments) → {args : List Term} → {rest : List Token} →
    d.tokens.length ≤ n → d.value = some args → Proper d.tokens → Symbol.moreArguments.Stops rest →
    ∀ stop rounds, d.tokens.length ≤ rounds →
      moreArguments expr rounds stop (d.tokens ++ rest) = .ok (args, rest)
  | .noMore, args, rest, _, hv, _, hrest, stop, rounds, _ => by
      obtain rfl : [] = args := Option.some.inj hv
      have hcomma : startsWith "," rest = false :=
        startsWith_eq_false hrest fun t ht => (Bool.or_eq_false_iff.mp ht).1
      cases rounds with
      | zero => rfl
      | succ r => rw [Tree.tokens, List.nil_append, moreArguments, if_neg (by simp [hcomma])]
  | .comma p next more, args, rest, hn, hv, hd, hrest, stop, rounds, hrounds => by
      obtain ⟨nextValue, hnext, moreValues, hmore, rfl⟩ : ∃ nextValue, next.value = some nextValue ∧
          ∃ moreValues, more.value = some moreValues ∧ nextValue :: moreValues = args := by
        simpa [Tree.value, Option.bind_eq_some_iff] using hv
      simp only [Tree.tokens, List.length_cons, List.length_append] at hn hrounds
      obtain ⟨r, rfl⟩ : ∃ r, rounds = r + 1 := Nat.exists_eq_succ_of_ne_zero (by omega)
      have hnextParse := hexpr next (by omega) hnext hd.tail.left (Tree.stops_next more hrest) stop
      have hmoreParse :=
        moreArguments_eq more (by omega) hmore hd.tail.right hrest stop r (by omega)
      rw [Tree.tokens, List.cons_append, List.append_assoc, moreArguments,
        if_pos (startsWith_punct _ _ _)]
      simp only [List.drop_succ_cons, List.drop_zero, hnextParse, hmoreParse]

theorem readBy_arguments : Symbol.arguments.ReadBy (n + 1) (arguments expr) := by
  intro d args rest hn hv hd _ stop
  cases d with
  | noArguments p q =>
      obtain rfl : [] = args := Option.some.inj hv
      rfl
  | arguments p first more q =>
      obtain ⟨firstValue, hfirst, moreValues, hmore, rfl⟩ : ∃ firstValue,
          first.value = some firstValue ∧ ∃ moreValues, more.value = some moreValues ∧
          firstValue :: moreValues = args := by
        simpa [Tree.value, Option.bind_eq_some_iff] using hv
      simp only [Tree.tokens, List.length_cons, List.length_append] at hn
      have hends : Symbol.moreArguments.Stops (⟨.punct, ")", q⟩ :: rest) :=
        Symbol.stops_cons.mpr rfl
      have hfirstParse :=
        hexpr first (by omega) hfirst hd.tail.left (Tree.stops_next more hends) stop
      have hmoreParse := moreArguments_eq hexpr more (by omega) hmore hd.tail.right.left hends stop
        (more.tokens ++ ⟨.punct, ")", q⟩ :: rest).length (by simp)
      simp only [Tree.tokens, List.cons_append, List.append_assoc, List.nil_append]
      rw [arguments, if_pos (startsWith_punct _ _ _)]
      simp only [List.drop_succ_cons, List.drop_zero, first.not_startsWith_closing hd.tail.left,
        Bool.false_eq_true, if_false, hfirstParse, hmoreParse, expect_punct]

omit hexpr in
theorem arguments_of_stops {rest : List Token} (h : Symbol.factor.Stops rest) (stop : Nat) :
    arguments expr stop rest = .ok ([], rest) := by
  have hopen : startsWith "(" rest = false := startsWith_eq_false h fun t ht => ht
  rw [arguments, if_neg (by simp [hopen])]

omit hexpr in
theorem factor_prefixed {op : String} {p q stop : Nat} {ts : List Token} :
    factor expr stop (⟨.op, op, p⟩ :: ⟨.punct, "(", q⟩ :: ts) =
      prefixed expr op stop (⟨.punct, "(", q⟩ :: ts) := by
  simp [factor, startsWith]

theorem readBy_factor : Symbol.factor.ReadBy (n + 1) (factor expr) := by
  intro d v rest hn hv hd hrest stop
  cases d with
  | parenthesized p d q =>
      simp only [Tree.tokens, List.length_cons, List.length_append] at hn
      have hends : (Symbol.joined .sum).Stops (⟨.punct, ")", q⟩ :: rest) :=
        Symbol.stops_cons.mpr rfl
      have hparse := hexpr d (by omega) hv hd.tail.left hends stop
      rw [Tree.tokens, List.cons_append, List.append_assoc]
      change parenthesized expr stop (d.tokens ++ ⟨.punct, ")", q⟩ :: rest) = _
      rw [parenthesized, hparse]
      simp only [expect_punct]
  | negative p digits q =>
      change (numeral true digits).map (·, rest) = _
      rw [numeral_eq_ok hv]
      rfl
  | number digits p =>
      change (numeral false digits).map (·, rest) = _
      rw [numeral_eq_ok hv]
      rfl
  | string text p =>
      obtain rfl : _ = v := Option.some.inj hv
      rfl
  | var name hname p =>
      obtain rfl : _ = v := Option.some.inj hv
      simp [Tree.tokens, factor, hname]
  | constant name hname p =>
      obtain rfl : _ = v := Option.some.inj hv
      simp [Tree.tokens, factor, hname, constant, arguments_of_stops hrest]
  | applied name hname p args =>
      obtain ⟨argValues, hargs, rfl⟩ : ∃ argValues, args.value = some argValues ∧
          nameApplied name argValues = v := by
        simpa [Tree.value] using hv
      have hparse := readBy_arguments hexpr args (Nat.le_of_succ_le hn) hargs hd.tail
        (Symbol.stops_arguments rest) stop
      rw [Tree.tokens, List.cons_append]
      simp only [factor, hname, constant, hparse]
      cases argValues <;> rfl
  | prefixed op p args =>
      obtain ⟨argValues, hargs, rfl⟩ : ∃ argValues, args.value = some argValues ∧
          Term.compound ((relation? op).getD op) argValues = v := by
        simpa [Tree.value] using hv
      have hparse := readBy_arguments hexpr args (Nat.le_of_succ_le hn) hargs hd.tail
        (Symbol.stops_arguments rest) stop
      obtain ⟨q, ts, htokens⟩ := args.tokens_arguments
      rw [htokens, List.cons_append] at hparse
      rw [Tree.tokens, htokens, List.cons_append, List.cons_append, factor_prefixed,
        prefixed, hparse]

end Factors

section Operands

variable {l : Level} {operand : Parser Term} {n : Nat}
  (hoperand : (Symbol.operand l).ReadBy n operand)
include hoperand

theorem operands_eq : (d : Tree (.more l)) → {join : Term → Term} → {rest : List Token} →
    d.tokens.length ≤ n → d.value = some join → Proper d.tokens → (Symbol.more l).Stops rest →
    ∀ stop rounds left, d.tokens.length ≤ rounds →
      operands l.operators operand rounds left stop (d.tokens ++ rest) = .ok (join left, rest)
  | .done, join, rest, _, hv, _, hrest, stop, rounds, left, _ => by
      obtain rfl : id = join := Option.some.inj hv
      cases rounds with
      | zero => rfl
      | succ r =>
          rw [operands.eq_def]
          dsimp only
          split
          · next op p rest' heq =>
            obtain rfl : rest = _ := heq
            have hop : isOperator l ⟨.op, op, p⟩ = false := by
              have hstop := Symbol.stops_cons.mp hrest
              cases l <;> simp_all [Symbol.continuedBy, Level.continuedBy]
            rw [if_neg (by simpa [isOperator] using hop)]
            rfl
          · rfl
  | .operator op hop p right more, join, rest, hn, hv, hd, hrest, stop, rounds, left, hrounds => by
      obtain ⟨rightValue, hright, join, hjoin, rfl⟩ : ∃ rightValue, right.value = some rightValue ∧
          ∃ join', more.value = some join' ∧
            (fun left => join' (.compound op [left, rightValue])) = join := by
        simpa [Tree.value, Option.bind_eq_some_iff] using hv
      simp only [Tree.tokens, List.length_cons, List.length_append] at hn hrounds
      obtain ⟨r, rfl⟩ : ∃ r, rounds = r + 1 := Nat.exists_eq_succ_of_ne_zero (by omega)
      have hrightParse := hoperand right (by omega) hright hd.tail.left
        (Tree.stops_operand more hrest) stop
      have hmoreParse := operands_eq more (by omega) hjoin hd.tail.right hrest stop r
        (.compound op [left, rightValue]) (by omega)
      have hcontains : l.operators.contains op = true := by simpa using hop
      rw [Tree.tokens, List.cons_append, List.append_assoc, operands.eq_def]
      simp only [hcontains, if_true, hrightParse, hmoreParse]

theorem readBy_joined : (Symbol.joined l).ReadBy n (joined l.operators operand) := by
  intro d v rest hn hv hd hrest stop
  cases d with
  | joined first more =>
      obtain ⟨join, hjoin, left, hleft, rfl⟩ : ∃ join, more.value = some join ∧
          ∃ left, first.value = some left ∧ join left = v := by
        simpa [Tree.value, Option.bind_eq_some_iff] using hv
      rw [Tree.tokens, List.length_append] at hn
      have hfirst := hoperand first (by omega) hleft hd.left (Tree.stops_operand more hrest) stop
      have hmore := operands_eq hoperand more (by omega) hjoin hd.right hrest stop
        (more.tokens ++ rest).length left (by simp)
      rw [Tree.tokens, List.append_assoc, joined, hfirst]
      exact hmore

end Operands

theorem readBy_expressionWithin (n : Nat) : (Symbol.joined .sum).ReadBy n (expressionWithin n) := by
  induction n with
  | zero =>
      intro d v rest hn
      obtain ⟨t, ts, htokens, _⟩ := d.starts
      simp [htokens] at hn
  | succ n ih =>
      have hfactor : (Symbol.operand .product).ReadBy (n + 1) (factor (expressionWithin n)) := by
        intro d
        cases d with
        | factor d => exact readBy_factor ih d
      have hproduct : (Symbol.operand .sum).ReadBy (n + 1)
          (joined Level.product.operators (factor (expressionWithin n))) := by
        intro d
        cases d with
        | product d => exact readBy_joined hfactor d
      exact readBy_joined hproduct

theorem readBy_expression (n : Nat) : (Symbol.joined .sum).ReadBy n expression := by
  intro d v rest _ hv hd hrest stop
  exact readBy_expressionWithin _ d (by simp; omega) hv hd hrest stop

/-! ## Heads and goals -/

variable {rest : List Token}

theorem HeadTree.literal_eq (d : HeadTree) {f : Fact} (hv : d.value = some f) (hd : Proper d.tokens)
    (hrest : Symbol.factor.Stops rest) (stop : Nat) :
    literal stop (d.tokens ++ rest) = .ok (f, rest) := by
  obtain ⟨name, hname, p, args⟩ := d
  cases args with
  | none =>
      obtain rfl : _ = f := Option.some.inj hv
      simp [tokens, literal, hname, arguments_of_stops hrest]
  | some args =>
      obtain ⟨argValues, hargs, rfl⟩ : ∃ argValues, args.value = some argValues ∧
          ⟨name, argValues⟩ = f := by
        simpa [value] using hv
      have hparse :=
        readBy_arguments (readBy_expression args.tokens.length) args (Nat.le_succ _) hargs
        hd.tail (Symbol.stops_arguments rest) stop
      simp only [tokens, Option.elim_some, List.cons_append, literal, hname, hparse]
      rfl

theorem EndsBefore.startsWith_eq_false {others : List String} (h : EndsBefore others rest)
    {symbol : String} (hsymbol : symbol ∈ others) : startsWith symbol rest = false := by
  cases rest with
  | nil => rfl
  | cons t rest =>
      obtain ⟨_, htext⟩ := h t rfl
      have hne : t.text ≠ symbol := fun heq => htext (heq ▸ hsymbol)
      simp [startsWith, hne]

theorem relationAhead?_of_endsBefore {others : List String} (h : EndsBefore others rest) :
    relationAhead? rest = none := by
  cases rest with
  | nil => rfl
  | cons t rest =>
      obtain ⟨kind, text, p⟩ := t
      obtain rfl : kind = .punct := (h _ rfl).1
      rfl

theorem relationAhead?_cons {t : Token} {predicate : String} (hkind : t.kind = .op ∨ t.kind = .name)
    (hsymbol : relation? t.text = some predicate) :
    relationAhead? (t :: rest) = some predicate := by
  obtain ⟨kind, text, p⟩ := t
  rcases hkind with rfl | rfl <;> exact hsymbol

theorem StatementTree.relationOrLiteral_eq (d : StatementTree) {negated : Bool} {g : Goal}
    (hv : d.value negated = some g) (hd : Proper d.tokens) (hrest : EndsBefore ["("] rest)
    (stop : Nat) : relationOrLiteral negated stop (d.tokens ++ rest) = .ok (g, rest) := by
  obtain ⟨left, relation⟩ := d
  obtain ⟨leftValue, hleft, hgoal⟩ := Option.bind_eq_some_iff.mp hv
  have hleftParse := readBy_expression _ left (Nat.le_refl _) hleft hd.left
    (stops_relation relation hrest) stop
  rw [tokens, List.append_assoc, relationOrLiteral, hleftParse]
  cases relation with
  | some r =>
      obtain ⟨rightValue, hright, hg⟩ := Option.bind_eq_some_iff.mp hgoal
      obtain rfl := Option.some.inj hg
      have hrightParse := readBy_expression _ r.right (Nat.le_refl _) hright hd.right.tail
        hrest.stops_sum stop
      simp only [Option.elim_some, RelationTree.tokens, List.cons_append,
        relationAhead?_cons r.hkind r.hsymbol, List.drop_succ_cons, List.drop_zero, hrightParse]
  | none =>
      simp only [Option.elim_none, List.nil_append, relationAhead?_of_endsBefore hrest]
      cases leftValue <;> first | cases hgoal; done | cases hgoal; rfl

theorem GoalTree.goal_eq (d : GoalTree) {g : Goal} (hv : d.value = some g) (hd : Proper d.tokens)
    (hrest : EndsBefore ["("] rest) (stop : Nat) :
    goal stop (d.tokens ++ rest) = .ok (g, rest) := by
  have hnegates : negates (d.tokens ++ rest) = d.negation.isSome :=
    (negates_append d.tokens_ne_nil hrest).trans d.hnegation
  rw [Grammar.goal_eq, hnegates]
  obtain ⟨negation, statement, hd'⟩ := d
  cases negation with
  | none => exact statement.relationOrLiteral_eq hv hd hrest stop
  | some p => exact statement.relationOrLiteral_eq hv hd.tail hrest stop

/-! ## Clauses, queries and programs -/

namespace BodyTree

theorem moreGoals_eq (more : List (Nat × GoalTree)) {gs : List Goal}
    (hv : more.mapM (fun (_, d) => d.value) = some gs) (hd : Proper (moreTokens more))
    (hrest : EndsBefore ["(", ","] rest) (stop rounds : Nat)
    (hrounds : (moreTokens more).length ≤ rounds) :
    moreGoals rounds stop (moreTokens more ++ rest) = .ok (gs, rest) := by
  induction more generalizing gs rounds with
  | nil =>
      obtain rfl : [] = gs := Option.some.inj hv
      have hcomma : startsWith "," rest = false := hrest.startsWith_eq_false (by decide)
      cases rounds with
      | zero => rfl
      | succ r =>
          change moreGoals (r + 1) stop rest = _
          rw [moreGoals, if_neg (by simp [hcomma])]
  | cons head more ih =>
      obtain ⟨p, d⟩ := head
      obtain ⟨g, hg, gs, hgs, rfl⟩ : ∃ g, d.value = some g ∧ ∃ gs',
          more.mapM (fun (_, d) => d.value) = some gs' ∧ g :: gs' = gs := by
        simpa [List.mapM_cons, Option.bind_eq_some_iff] using hv
      have htokens : moreTokens ((p, d) :: more) = ⟨.punct, ",", p⟩ ::
        (d.tokens ++ moreTokens more) := rfl
      rw [htokens] at hd hrounds ⊢
      simp only [List.length_cons, List.length_append] at hrounds
      obtain ⟨r, rfl⟩ : ∃ r, rounds = r + 1 := Nat.exists_eq_succ_of_ne_zero (by omega)
      have hgoal := d.goal_eq hg hd.tail.left (endsBefore_moreTokens more hrest) stop
      have hmore := ih hgs hd.tail.right r (by omega)
      rw [List.cons_append, List.append_assoc, moreGoals, if_pos (startsWith_punct _ _ _)]
      simp only [List.drop_succ_cons, List.drop_zero, hgoal, hmore]

theorem goalList_eq (d : BodyTree) {gs : List Goal} (hv : d.value = some gs) (hd : Proper d.tokens)
    (hrest : EndsBefore ["(", ","] rest) (stop : Nat) :
    goalList stop (d.tokens ++ rest) = .ok (gs, rest) := by
  obtain ⟨g, hg, gs, hgs, rfl⟩ : ∃ g, d.first.value = some g ∧ ∃ gs',
      d.more.mapM (fun (_, d) => d.value) = some gs' ∧ g :: gs' = gs := by
    simpa [value, Option.bind_eq_some_iff] using hv
  have hgoal := d.first.goal_eq hg hd.left (endsBefore_moreTokens d.more hrest) stop
  have hmore :=
    moreGoals_eq d.more hgs hd.right hrest stop (moreTokens d.more ++ rest).length (by simp)
  rw [tokens, List.append_assoc, goalList, hgoal]
  simp only [hmore]

end BodyTree

theorem ClauseTree.clause_eq (d : ClauseTree) {c : Clause} (hv : d.value = some c)
    (hd : Proper d.tokens) (hrest : EndsBefore ["(", ",", ":-"] rest) (stop : Nat) :
    clause stop (d.tokens ++ rest) = .ok (c, rest) := by
  have hends : EndsBefore ["(", ","] rest := hrest.mono (by simp)
  cases d with
  | fact head =>
      obtain ⟨f, hf, rfl⟩ : ∃ f, head.value = some f ∧ Clause.fact f = c := by
        simpa [value] using hv
      have hhead := head.literal_eq hf hd (hrest.mono (by simp)).stops_factor stop
      have hneck : startsWith ":-" rest = false := hrest.startsWith_eq_false (by decide)
      rw [tokens, clause, hhead]
      simp [hneck]
  | rule head neck body =>
      obtain ⟨f, hf, gs, hgs, rfl⟩ : ∃ f, head.value = some f ∧ ∃ gs, body.value = some gs ∧
          Clause.rule ⟨f, gs⟩ = c := by
        simpa [value, Option.bind_eq_some_iff] using hv
      have hneck : startsWith ":-" (⟨.neck, ":-", neck⟩ :: (body.tokens ++ rest)) = true := rfl
      have hhead := head.literal_eq hf hd.left (Symbol.stops_neck neck (body.tokens ++ rest)) stop
      have hbody := body.goalList_eq hgs hd.right.tail hends stop
      rw [tokens, List.append_assoc, List.cons_append, clause, hhead]
      simp only [hneck, if_true, List.drop_succ_cons, List.drop_zero, hbody]

theorem ClauseTree.tokens_ne_nil (d : ClauseTree) : d.tokens ≠ [] := by
  simp [tokens_eq, HeadTree.tokens]

/-- Clauses that are ended by periods are read one by one, whatever follows them. -/
theorem clauses_ended (ended : List (ClauseTree × Nat)) {cs : List Clause}
    (hv : Start.program.value ⟨ended, none⟩ = some cs) {rest : List Token}
    (hd : Proper (Start.program.tokens ⟨ended, none⟩ ++ rest)) (stop rounds : Nat)
    (hrounds : (Start.program.tokens ⟨ended, none⟩ ++ rest).length ≤ rounds) :
    ∃ r, rest.length ≤ r ∧ clauses rounds stop (Start.program.tokens ⟨ended, none⟩ ++ rest) =
      (clauses r stop rest).map (cs ++ ·) := by
  induction ended generalizing cs rounds with
  | nil =>
      obtain rfl : [] = cs := Option.some.inj hv
      refine ⟨rounds, hrounds, ?_⟩
      change clauses rounds stop rest = _
      cases clauses rounds stop rest <;> rfl
  | cons head ended ih =>
      obtain ⟨d, p⟩ := head
      obtain ⟨c, hc, cs', hcs, rfl⟩ : ∃ c, d.value = some c ∧
          ∃ cs', Start.program.value ⟨ended, none⟩ = some cs' ∧ c :: cs' = cs := by
        simpa [Start.program_value_cons, Option.bind_eq_some_iff] using hv
      have htokens : Start.program.tokens ⟨(d, p) :: ended, none⟩ ++ rest =
          d.tokens ++ ⟨.punct, ".", p⟩ :: (Start.program.tokens ⟨ended, none⟩ ++ rest) := by
        simp [Start.program]
      rw [htokens] at hd hrounds ⊢
      simp only [List.length_append, List.length_cons] at hrounds
      obtain ⟨r, rfl⟩ : ∃ r, rounds = r + 1 := Nat.exists_eq_succ_of_ne_zero (by omega)
      have hends : EndsBefore ["(", ",", ":-"]
          (⟨.punct, ".", p⟩ :: (Start.program.tokens ⟨ended, none⟩ ++ rest)) := .cons (by decide)
      have hclause := d.clause_eq hc hd.left hends stop
      obtain ⟨r', hr', hmore⟩ := ih hcs hd.right.tail r (by simp only [List.length_append]; omega)
      refine ⟨r', hr', ?_⟩
      rw [clauses, if_neg (by simp), hclause]
      simp only [expect_punct, hmore]
      cases clauses r' stop rest <;> simp [Except.map]

theorem clauses_eq (ended : List (ClauseTree × Nat)) (last : Option ClauseTree) {cs : List Clause}
    (hv : Start.program.value ⟨ended, last⟩ = some cs)
    (hd : Proper (Start.program.tokens ⟨ended, last⟩)) (stop rounds : Nat)
    (hrounds : (Start.program.tokens ⟨ended, last⟩).length ≤ rounds) :
    clauses rounds stop (Start.program.tokens ⟨ended, last⟩) = .ok cs := by
  obtain ⟨cs', hcs', more, hmore, rfl⟩ : ∃ cs', Start.program.value ⟨ended, none⟩ = some cs' ∧
      ∃ more, last.mapM ClauseTree.value = some more ∧ cs' ++ more.toList = cs := by
    simpa [Start.program, Option.bind_eq_some_iff] using hv
  have htokens : Start.program.tokens ⟨ended, last⟩ =
      Start.program.tokens ⟨ended, none⟩ ++ last.elim [] ClauseTree.tokens := by
    simp [Start.program]
  rw [htokens] at hd hrounds ⊢
  obtain ⟨r, hr, hclauses⟩ := clauses_ended ended hcs' hd stop rounds hrounds
  rw [hclauses]
  cases last with
  | none =>
      obtain rfl : none = more := Option.some.inj hmore
      cases r <;> rfl
  | some d =>
      obtain ⟨c, hc, rfl⟩ : ∃ c, d.value = some c ∧ some c = more := by
        simpa [Option.bind_eq_some_iff] using hmore
      have hclause := d.clause_eq hc hd.right EndsBefore.nil stop
      rw [List.append_nil] at hclause
      have hne : d.tokens.isEmpty = false := by simp [d.tokens_ne_nil]
      have hpos : 0 < d.tokens.length := List.length_pos_iff.mpr d.tokens_ne_nil
      change d.tokens.length ≤ r at hr
      change (clauses r stop d.tokens).map _ = _
      obtain ⟨r, rfl⟩ : ∃ r', r = r' + 1 := Nat.exists_eq_succ_of_ne_zero (by omega)
      simp [clauses, hne, hclause, Except.map]

theorem skipPeriod_periodTokens (period : Option Nat) : skipPeriod (periodTokens period) = [] := by
  cases period <;> rfl

theorem startsWith_neck_periodTokens (period : Option Nat) :
    startsWith ":-" (periodTokens period) = false := by
  cases period <;> rfl

end Grammar

section Texts

open Grammar

variable {text : String} {ts : List Token} (htext : tokenize text = .ok ts) (hts : Proper ts)
include htext hts

theorem Term.parse_of_derives {t : Term} (h : Start.term.Derives ts t) :
    Term.parse text = .ok t := by
  obtain ⟨d, rfl, hd⟩ := h
  have hparse : expression text.length (Start.term.tokens d ++ []) = .ok (t, []) :=
    readBy_expression _ d (Nat.le_refl _) hd hts EndsBefore.nil.stops_sum text.length
  rw [List.append_nil] at hparse
  rw [parse, htext]
  simp only [bind, Except.bind, hparse]
  rfl

theorem Fact.parse_of_derives {f : Fact} (h : Start.fact.Derives ts f) :
    Fact.parse text = .ok f := by
  obtain ⟨d, rfl, hd⟩ := h
  have hends : EndsBefore ["("] (periodTokens d.period) :=
    (endsBefore_periodTokens d.period).mono (by simp)
  have hparse : literal text.length (Start.fact.tokens d) = .ok (f, periodTokens d.period) :=
    d.head.literal_eq hd hts.left hends.stops_factor text.length
  rw [parse, htext]
  simp only [bind, Except.bind, hparse]
  simp [startsWith_neck_periodTokens, skipPeriod_periodTokens, atEnd]

theorem Rule.parse_of_derives (hneck : mentionsNeck text.toList = true) {r : Rule}
    (h : Start.rule.Derives ts r) : Rule.parse text = .ok r := by
  obtain ⟨⟨head, neck, body, period⟩, htokens, hd⟩ := h
  obtain ⟨f, hf, gs, hgs, rfl⟩ : ∃ f, head.value = some f ∧ ∃ gs, body.value = some gs ∧
      ⟨f, gs⟩ = r := by
    simpa [Start.rule, Option.bind_eq_some_iff] using hd
  obtain rfl : head.tokens ++ ⟨.neck, ":-", neck⟩ :: (body.tokens ++ periodTokens period) = ts := by
    simpa [Start.rule, ClauseTree.tokens] using htokens
  have hhead := head.literal_eq hf hts.left
    (Symbol.stops_neck neck (body.tokens ++ periodTokens period)) text.length
  have hbody :=
    body.goalList_eq hgs hts.right.tail.left (endsBefore_periodTokens period) text.length
  have hexpect :
      expect ":-" text.length (⟨.neck, ":-", neck⟩ :: (body.tokens ++ periodTokens period)) =
      .ok ((), body.tokens ++ periodTokens period) := rfl
  rw [parse, if_pos hneck, htext]
  simp only [bind, Except.bind, hhead, hexpect, hbody, skipPeriod_periodTokens]
  rfl

theorem Goal.parseQuery_of_derives {gs : List Goal} (h : Start.query.Derives ts gs) :
    Goal.parseQuery text = .ok gs := by
  obtain ⟨d, rfl, hd⟩ := h
  have hparse : goalList text.length (Start.query.tokens d) = .ok (gs, periodTokens d.period) :=
    d.body.goalList_eq hd hts.left (endsBefore_periodTokens d.period) text.length
  have hne : (Start.query.tokens d).isEmpty = false := by
    simp [Start.query, BodyTree.tokens, d.body.first.tokens_ne_nil]
  rw [parseQuery, htext]
  simp only [bind, Except.bind, hne, hparse, skipPeriod_periodTokens]
  rfl

theorem Clause.parseProgram_of_derives {cs : List Clause} (h : Start.program.Derives ts cs) :
    Clause.parseProgram text = .ok cs := by
  obtain ⟨⟨ended, last⟩, rfl, hd⟩ := h
  rw [parseProgram, htext]
  exact clauses_eq ended last hd hts text.length _ (Nat.le_refl _)

end Texts

end Clausal
