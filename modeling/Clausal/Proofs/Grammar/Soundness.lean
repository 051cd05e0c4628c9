import Clausal.Proofs.Grammar.Unambiguous

/-!
# What the parsers read is in the grammar

Each parser either takes tokens that derive what it returns, or it fails at the place of a token or
at the end of the text. The one other way to fail is an integer with too many digits.
-/

namespace Clausal

/-- Punctuation and necks are told by their text. -/
structure Token.IsProper (t : Token) : Prop where
  punct : t.text ∈ ["(", ")", ",", "."] → t.kind = .punct
  neck : t.text = ":-" → t.kind = .neck

/-- An integer literal that is too long to be read. -/
def Token.IsLongInteger (t : Token) : Prop :=
  t.kind = .number ∧ t.text.toList.all Text.isDigit = true ∧ Number.digitLimit < t.text.length

instance (t : Token) : Decidable t.IsLongInteger := inferInstanceAs (Decidable (_ ∧ _ ∧ _))

namespace Grammar

/-- Tokens as they are cut from a text. -/
def Proper (ts : List Token) : Prop := ∀ t ∈ ts, t.IsProper

theorem Proper.left {ts ts' : List Token} (h : Proper (ts ++ ts')) : Proper ts :=
  fun t ht => h t (List.mem_append_left ts' ht)

theorem Proper.right {ts ts' : List Token} (h : Proper (ts ++ ts')) : Proper ts' :=
  fun t ht => h t (List.mem_append_right ts ht)

theorem Proper.tail {t : Token} {ts : List Token} (h : Proper (t :: ts)) : Proper ts :=
  fun u hu => h u (List.mem_cons_of_mem t hu)

/-- How parsing can fail. -/
def Blames (stop : Nat) (ts : List Token) : Fault → Prop
  | .parse cause => ∃ p, cause.position? = some p ∧ (p = stop ∨ ∃ t ∈ ts, t.pos = p)
  | .longNumeral digits => ∃ t ∈ ts, t.IsLongInteger ∧ digits = t.text.length
  | _ => False

/-- The outcome of a parser: it takes tokens that stand for what it returns, or it fails. -/
def Reads {α : Type} (P : α → List Token → Prop) (stop : Nat) (ts : List Token) :
    Except Fault (α × List Token) → Prop
  | .ok (v, rest) => ∃ used, ts = used ++ rest ∧ P v used
  | .error e => Blames stop ts e

/-- Some tree of the symbol has these tokens and this value. -/
def Symbol.Derives (s : Symbol) (v : s.Meaning) (ts : List Token) : Prop :=
  ∃ d : Tree s, d.tokens = ts ∧ d.value = some v

section Outcomes

variable {α : Type} {P : α → List Token → Prop} {stop : Nat} {ts : List Token}

theorem Blames.mono {ts' : List Token} {e : Fault} (h : Blames stop ts e) (hsub : ts ⊆ ts') :
    Blames stop ts' e := by
  cases e with
  | parse cause =>
      obtain ⟨p, hp, hplace⟩ := h
      exact ⟨p, hp, hplace.imp_right fun ⟨t, ht, hpos⟩ => ⟨t, hsub ht, hpos⟩⟩
  | longNumeral digits =>
      obtain ⟨t, ht, hlong⟩ := h
      exact ⟨t, hsub ht, hlong⟩
  | _ => exact h.elim

theorem Reads.cases {r : Except Fault (α × List Token)} (h : Reads P stop ts r) :
    (∃ e, r = .error e ∧ Blames stop ts e) ∨
      ∃ v used rest, r = .ok (v, rest) ∧ ts = used ++ rest ∧ P v used := by
  match r with
  | .error e => exact .inl ⟨e, rfl, h⟩
  | .ok (v, rest) =>
      obtain ⟨used, hts, hv⟩ := h
      exact .inr ⟨v, used, rest, rfl, hts, hv⟩

/-- What comes after some tokens belongs to the whole. -/
theorem Reads.after {β : Type} {Q : β → List Token → Prop} (used : List Token)
    {r : Except Fault (β × List Token)} (h : Reads (fun w more => Q w (used ++ more)) stop ts r) :
    Reads Q stop (used ++ ts) r := by
  rcases h.cases with ⟨e, rfl, he⟩ | ⟨v, more, rest, rfl, rfl, hv⟩
  · exact he.mono (List.subset_append_right used ts)
  · exact ⟨used ++ more, (List.append_assoc ..).symm, hv⟩

/-- Parsing goes on behind the tokens that were read. -/
theorem Reads.bind {β : Type} {Q : β → List Token → Prop} {r : Except Fault (α × List Token)}
    {r' : Except Fault (β × List Token)} (h : Reads P stop ts r)
    (herror : ∀ e, r = .error e → r' = .error e)
    (hok : ∀ v used rest, r = .ok (v, rest) → ts = used ++ rest → P v used →
      Reads (fun w more => Q w (used ++ more)) stop rest r') : Reads Q stop ts r' := by
  rcases h.cases with ⟨e, hr, he⟩ | ⟨v, used, rest, hr, rfl, hv⟩
  · rw [herror e hr]
    exact he
  · exact (hok v used rest hr rfl hv).after used

theorem reads_ok {v : α} (h : P v []) : Reads P stop ts (.ok (v, ts)) := ⟨[], rfl, h⟩

theorem blames_unexpected (wanted : Expectation) (stop : Nat) (ts : List Token) :
    ∃ e, unexpected (α := α) wanted stop ts = .error e ∧ Blames stop ts e := by
  cases ts with
  | nil => exact ⟨_, rfl, stop, rfl, .inl rfl⟩
  | cons t rest => exact ⟨_, rfl, t.pos, rfl, .inr ⟨t, List.mem_cons_self, rfl⟩⟩

theorem reads_unexpected (wanted : Expectation) : Reads P stop ts (unexpected wanted stop ts) := by
  obtain ⟨e, hr, he⟩ := blames_unexpected (α := α × List Token) wanted stop ts
  rw [hr]
  exact he

theorem exists_of_startsWith {symbol : String} (h : startsWith symbol ts = true) :
    ∃ t rest, ts = t :: rest ∧ t.text = symbol := by
  cases ts with
  | nil => simp [startsWith] at h
  | cons t rest => exact ⟨t, rest, rfl, by simp_all [startsWith]⟩

theorem exists_punct (hts : Proper ts) {symbol : String} (h : startsWith symbol ts = true)
    (hsymbol : symbol ∈ ["(", ")", ",", "."]) :
    ∃ p rest, ts = ⟨.punct, symbol, p⟩ :: rest := by
  obtain ⟨⟨kind, text, p⟩, rest, rfl, rfl⟩ := exists_of_startsWith h
  obtain rfl : kind = .punct := (hts _ List.mem_cons_self).punct hsymbol
  exact ⟨p, rest, rfl⟩

theorem reads_expect (stop : Nat) (symbol : String) (hts : Proper ts)
    (hsymbol : symbol ∈ ["(", ")", ",", "."]) :
    Reads (fun _ used => ∃ p, used = [⟨.punct, symbol, p⟩]) stop ts (expect symbol stop ts) := by
  rw [expect]
  split
  · next h =>
    obtain ⟨p, rest, rfl⟩ := exists_punct hts h hsymbol
    exact ⟨_, rfl, p, rfl⟩
  · exact reads_unexpected _

theorem of_numeral_eq_error {negative : Bool} {digits : String} {e : Fault}
    (h : numeral negative digits = .error e) :
    digits.toList.all Text.isDigit = true ∧ Number.digitLimit < digits.length ∧
      e = .longNumeral digits.length := by
  unfold numeral at h
  rw [← String.length_toList]
  by_cases hdigits : digits.toList.all Text.isDigit = true
  · by_cases hlong : Number.digitLimit < digits.toList.length
    · rw [if_pos hdigits, if_pos hlong] at h
      exact ⟨hdigits, hlong, (Except.error.inj h).symm⟩
    · simp only [if_pos hdigits, if_neg hlong] at h
      generalize isInt64 _ = fits at h
      cases fits <;> cases h
  · rw [if_neg hdigits] at h
    cases h

theorem reads_numeral (negative : Bool) {digits : String} {p : Nat} {rest : List Token}
    {P : Term → List Token → Prop}
    (h : ∀ v, (numeral negative digits).toOption = some v → P v [⟨.number, digits, p⟩]) :
    Reads P stop (⟨.number, digits, p⟩ :: rest) ((numeral negative digits).map (·, rest)) := by
  cases hr : numeral negative digits with
  | ok v => exact ⟨[_], rfl, h v (by rw [hr]; rfl)⟩
  | error e =>
      obtain ⟨hdigits, hlong, rfl⟩ := of_numeral_eq_error hr
      exact ⟨_, List.mem_cons_self, ⟨rfl, hdigits, hlong⟩, rfl⟩

end Outcomes

section Expressions

variable {expr : Parser Term} {stop : Nat}
  (hexpr : ∀ ts, Proper ts → Reads (Symbol.joined .sum).Derives stop ts (expr stop ts))
include hexpr

theorem reads_moreArguments (n : Nat) {ts : List Token} (hts : Proper ts) :
    Reads Symbol.moreArguments.Derives stop ts (moreArguments expr n stop ts) := by
  induction n generalizing ts with
  | zero => exact reads_ok ⟨.noMore, rfl, rfl⟩
  | succ n ih =>
      rw [moreArguments]
      split
      · next hcomma =>
        obtain ⟨p, rest, rfl⟩ := exists_punct hts hcomma (by decide)
        refine Reads.after [_] ((hexpr rest hts.tail).bind (fun e hr => by simp [hr]) ?_)
        rintro v used rest hr rfl ⟨d, rfl, hd⟩
        simp only [List.drop_succ_cons, List.drop_zero, hr]
        refine (ih hts.tail.right).bind (fun e hr => by simp [hr]) ?_
        rintro args used rest hr' rfl ⟨ds, rfl, hds⟩
        simp only [hr']
        exact reads_ok ⟨.comma p d ds, by simp [Tree.tokens], by simp [Tree.value, hd, hds]⟩
      · exact reads_ok ⟨.noMore, rfl, rfl⟩

theorem reads_arguments {ts : List Token} (hts : Proper ts) (hopen : startsWith "(" ts = true) :
    Reads Symbol.arguments.Derives stop ts (arguments expr stop ts) := by
  obtain ⟨p, inner, rfl⟩ := exists_punct hts hopen (by decide)
  rw [arguments, if_pos hopen]
  refine Reads.after [_] ?_
  simp only [List.drop_succ_cons, List.drop_zero]
  split
  · next hclose =>
    obtain ⟨q, rest, rfl⟩ := exists_punct hts.tail hclose (by decide)
    exact ⟨[_], rfl, .noArguments p q, rfl, rfl⟩
  · refine (hexpr inner hts.tail).bind (fun e hr => by simp [hr]) ?_
    rintro v used rest hr rfl ⟨d, rfl, hd⟩
    simp only [hr]
    refine (reads_moreArguments hexpr rest.length hts.tail.right).bind (fun e hr => by simp [hr]) ?_
    rintro args used rest hr' rfl ⟨ds, rfl, hds⟩
    simp only [hr']
    refine (reads_expect stop ")" hts.tail.right.right (by decide)).bind
      (fun e hr => by simp [hr]) ?_
    rintro _ used rest hr'' rfl ⟨q, rfl⟩
    simp only [hr'']
    exact reads_ok ⟨.arguments p d ds q, by simp [Tree.tokens], by simp [Tree.value, hd, hds]⟩

theorem reads_optionalArguments {ts : List Token} (hts : Proper ts) :
    Reads (fun args used => ∃ d : Option (Tree .arguments),
      d.elim [] Tree.tokens = used ∧ d.elim (some []) Tree.value = some args) stop ts
      (arguments expr stop ts) := by
  cases hopen : startsWith "(" ts with
  | true =>
      refine (reads_arguments hexpr hts hopen).bind (fun e hr => hr) ?_
      rintro args used rest hr rfl ⟨d, rfl, hd⟩
      rw [hr]
      exact reads_ok ⟨some d, by simp, hd⟩
  | false =>
      rw [arguments, if_neg (by simp [hopen])]
      exact reads_ok ⟨none, rfl, rfl⟩

theorem reads_constant {name : String} (hname : Text.startsUpper name = false) (p : Nat)
    {ts : List Token} (hts : Proper ts) :
    Reads Symbol.factor.Derives stop (⟨.name, name, p⟩ :: ts) (constant expr name stop ts) := by
  refine Reads.after [_] ?_
  rw [constant]
  refine (reads_optionalArguments hexpr hts).bind (fun e hr => by simp [hr]) ?_
  rintro args used rest hr rfl ⟨d, rfl, hd⟩
  simp only [hr]
  cases d with
  | none =>
      obtain rfl : args = [] := (Option.some.inj hd).symm
      exact reads_ok ⟨.constant name hname p, rfl, rfl⟩
  | some d =>
      have hvalue : (Tree.applied name hname p d).value = some (nameApplied name args) := by
        simp_all [Tree.value]
      cases args with
      | nil => exact reads_ok ⟨.applied name hname p d, by simp [Tree.tokens], hvalue⟩
      | cons arg args => exact reads_ok ⟨.applied name hname p d, by simp [Tree.tokens], hvalue⟩

theorem reads_prefixed (op : String) (p : Nat) {ts : List Token} (hts : Proper ts)
    (hopen : startsWith "(" ts = true) :
    Reads Symbol.factor.Derives stop (⟨.op, op, p⟩ :: ts) (prefixed expr op stop ts) := by
  refine Reads.after [_] ?_
  rw [prefixed]
  refine (reads_arguments hexpr hts hopen).bind (fun e hr => by simp [hr]) ?_
  rintro args used rest hr rfl ⟨d, rfl, hd⟩
  simp only [hr]
  exact reads_ok ⟨.prefixed op p d, by simp [Tree.tokens], by simp [Tree.value, hd]⟩

theorem reads_parenthesized (p : Nat) {ts : List Token} (hts : Proper ts) :
    Reads Symbol.factor.Derives stop (⟨.punct, "(", p⟩ :: ts) (parenthesized expr stop ts) := by
  refine Reads.after [_] ?_
  rw [parenthesized]
  refine (hexpr ts hts).bind (fun e hr => by simp [hr]) ?_
  rintro v used rest hr rfl ⟨d, rfl, hd⟩
  simp only [hr]
  refine (reads_expect stop ")" hts.right (by decide)).bind (fun e hr => by simp [hr]) ?_
  rintro _ used rest hr' rfl ⟨q, rfl⟩
  simp only [hr']
  exact reads_ok ⟨.parenthesized p d q, by simp [Tree.tokens], by simp [Tree.value, hd]⟩

theorem reads_factor {ts : List Token} (hts : Proper ts) :
    Reads Symbol.factor.Derives stop ts (factor expr stop ts) := by
  cases ts with
  | nil => exact reads_unexpected _
  | cons t rest =>
      obtain ⟨kind, text, p⟩ := t
      unfold factor
      cases kind with
      | punct =>
          dsimp only
          split
          · next hopen =>
            obtain rfl : text = "(" := by simpa using hopen
            exact reads_parenthesized hexpr p hts.tail
          · exact reads_unexpected _
      | number => exact reads_numeral false fun v hv => ⟨.number text p, rfl, hv⟩
      | string => exact ⟨[_], rfl, .string text p, rfl, rfl⟩
      | name =>
          dsimp only
          split
          · next hname => exact ⟨[_], rfl, .var text hname p, rfl, rfl⟩
          · next hname => exact reads_constant hexpr (by simpa using hname) p hts.tail
      | op =>
          dsimp only
          split
          · next digits q rest hminus =>
            obtain rfl : text = "-" := by simpa using hminus
            exact Reads.after [_] (reads_numeral true fun v hv => ⟨.negative p digits q, rfl, hv⟩)
          · split
            · next hopen => exact reads_prefixed hexpr text p hts.tail hopen
            · exact reads_unexpected _
      | neck => exact reads_unexpected _

end Expressions

theorem reads_operands {l : Level} {operand : Parser Term} {stop : Nat}
    (hoperand : ∀ ts, Proper ts → Reads (Symbol.operand l).Derives stop ts (operand stop ts))
    (n : Nat) (left : Term) {ts : List Token} (hts : Proper ts) :
    Reads (fun v used => ∃ join, (Symbol.more l).Derives join used ∧ join left = v) stop ts
      (operands l.operators operand n left stop ts) := by
  induction n generalizing left ts with
  | zero => exact reads_ok ⟨id, ⟨.done, rfl, rfl⟩, rfl⟩
  | succ n ih =>
      rw [operands.eq_def]
      dsimp only
      split
      · next op p rest =>
        split
        · next hop =>
          have hmem : op ∈ l.operators := by simpa using hop
          refine Reads.after [_] ((hoperand rest hts.tail).bind (fun e hr => by simp [hr]) ?_)
          rintro right used rest hr rfl ⟨d, rfl, hd⟩
          simp only [hr]
          refine (ih (.compound op [left, right]) hts.tail.right).bind (fun e hr => hr) ?_
          rintro v used rest hr' rfl ⟨join, ⟨ds, rfl, hds⟩, rfl⟩
          rw [hr']
          refine reads_ok
            ⟨fun left => join (.compound op [left, right]), ⟨.operator op hmem p d ds, ?_, ?_⟩,
            rfl⟩
          · simp [Tree.tokens]
          · simp [Tree.value, hd, hds]
        · exact reads_ok ⟨id, ⟨.done, rfl, rfl⟩, rfl⟩
      · exact reads_ok ⟨id, ⟨.done, rfl, rfl⟩, rfl⟩

theorem reads_joined {l : Level} {operand : Parser Term} {stop : Nat}
    (hoperand : ∀ ts, Proper ts → Reads (Symbol.operand l).Derives stop ts (operand stop ts))
    {ts : List Token} (hts : Proper ts) :
    Reads (Symbol.joined l).Derives stop ts (joined l.operators operand stop ts) := by
  rw [joined]
  refine (hoperand ts hts).bind (fun e hr => by simp [hr]) ?_
  rintro left used rest hr rfl ⟨d, rfl, hd⟩
  simp only [hr]
  refine (reads_operands hoperand rest.length left hts.right).bind (fun e hr => hr) ?_
  rintro v used rest hr' rfl ⟨join, ⟨ds, rfl, hds⟩, rfl⟩
  rw [hr']
  exact reads_ok ⟨.joined d ds, by simp [Tree.tokens], by simp [Tree.value, hd, hds]⟩

section Operands

variable {expr : Parser Term} {stop : Nat}
  (hexpr : ∀ ts, Proper ts → Reads (Symbol.joined .sum).Derives stop ts (expr stop ts))
include hexpr

theorem reads_productOperand {ts : List Token} (hts : Proper ts) :
    Reads (Symbol.operand .product).Derives stop ts (factor expr stop ts) := by
  refine (reads_factor hexpr hts).bind (fun e hr => hr) ?_
  rintro v used rest hr rfl ⟨d, rfl, hd⟩
  rw [hr]
  exact reads_ok ⟨.factor d, (List.append_nil _).symm, hd⟩

theorem reads_sumOperand {ts : List Token} (hts : Proper ts) :
    Reads (Symbol.operand .sum).Derives stop ts
      (joined Level.product.operators (factor expr) stop ts) := by
  refine (reads_joined (fun ts hts => reads_productOperand hexpr hts) hts).bind (fun e hr => hr) ?_
  rintro v used rest hr rfl ⟨d, rfl, hd⟩
  rw [hr]
  exact reads_ok ⟨.product d, (List.append_nil _).symm, hd⟩

end Operands

theorem reads_expressionWithin (n : Nat) {stop : Nat} {ts : List Token} (hts : Proper ts) :
    Reads (Symbol.joined .sum).Derives stop ts (expressionWithin n stop ts) := by
  induction n generalizing ts with
  | zero => exact reads_unexpected _
  | succ n ih => exact reads_joined (fun ts hts => reads_sumOperand (fun ts hts => ih hts) hts) hts

theorem reads_expression (stop : Nat) {ts : List Token} (hts : Proper ts) :
    Reads (Symbol.joined .sum).Derives stop ts (expression stop ts) :=
  reads_expressionWithin (ts.length + 1) hts

/-! ## Heads and goals -/

variable (stop : Nat) {ts : List Token}

theorem reads_literal (hts : Proper ts) :
    Reads (fun f used => ∃ d : HeadTree, d.tokens = used ∧ d.value = some f) stop ts
      (literal stop ts) := by
  rw [literal.eq_def]
  split
  · next name p rest =>
    split
    · exact reads_unexpected _
    · next hname =>
      refine Reads.after [_] ?_
      refine (reads_optionalArguments (fun ts hts => reads_expression stop hts) hts.tail).bind
        (fun e hr => by simp [hr]) ?_
      rintro args used rest hr rfl ⟨d, rfl, hd⟩
      simp only [hr]
      refine reads_ok ⟨⟨name, by simpa using hname, p, d⟩, by simp [HeadTree.tokens], ?_⟩
      cases d with
      | none => simp_all [HeadTree.value]
      | some d => simp_all [HeadTree.value]
  · exact reads_unexpected _

theorem exists_of_relationAhead? {predicate : String} (h : relationAhead? ts = some predicate) :
    ∃ t rest, ts = t :: rest ∧ (t.kind = .op ∨ t.kind = .name) ∧
      relation? t.text = some predicate := by
  rw [relationAhead?.eq_def] at h
  split at h
  · exact ⟨_, _, rfl, .inl rfl, h⟩
  · exact ⟨_, _, rfl, .inr rfl, h⟩
  · cases h

theorem startOf_eq (stop : Nat) (ts : List Token) :
    startOf stop ts = stop ∨ ∃ t ∈ ts, t.pos = startOf stop ts := by
  cases ts with
  | nil => exact .inl rfl
  | cons t rest => exact .inr ⟨t, List.mem_cons_self, rfl⟩

theorem reads_relationOrLiteral (negated : Bool) (hts : Proper ts) :
    Reads (fun g used => ∃ d : StatementTree, d.tokens = used ∧ d.value negated = some g) stop ts
      (relationOrLiteral negated stop ts) := by
  rw [relationOrLiteral]
  rcases (reads_expression stop hts).cases
    with ⟨e, hr, he⟩ | ⟨left, used, rest, hr, rfl, d, rfl, hd⟩
  · simp only [hr]
    exact he
  · simp only [hr]
    split
    · next predicate hrelation =>
      obtain ⟨t, rest, rfl, hkind, hsymbol⟩ := exists_of_relationAhead? hrelation
      refine Reads.after d.tokens (Reads.after [_] ?_)
      simp only [List.drop_succ_cons, List.drop_zero]
      refine (reads_expression stop hts.right.tail).bind (fun e hr => by simp [hr]) ?_
      rintro right used rest hr' rfl ⟨d', rfl, hd'⟩
      simp only [hr']
      refine reads_ok ⟨⟨d, some ⟨t, predicate, hkind, hsymbol, d'⟩⟩, ?_, ?_⟩
      · simp [StatementTree.tokens, RelationTree.tokens]
      · simp [StatementTree.value, hd, hd']
    · have htokens : StatementTree.tokens ⟨d, none⟩ = d.tokens := List.append_nil _
      split
      · exact ⟨d.tokens, rfl, ⟨d, none⟩, htokens, by simp [StatementTree.value, hd]⟩
      · exact ⟨d.tokens, rfl, ⟨d, none⟩, htokens, by simp [StatementTree.value, hd]⟩
      · exact ⟨_, rfl, startOf_eq stop _⟩

theorem goal_eq (stop : Nat) (ts : List Token) :
    goal stop ts = if negates ts then relationOrLiteral true stop (ts.drop 1)
      else relationOrLiteral false stop ts := by
  rw [goal.eq_def]
  split
  · next p rest =>
    cases rest with
    | nil => rfl
    | cons next rest => simp [startsWithKind, negates]
  · next hnot =>
    have hnegates : negates ts = false := by
      rcases ts with _ | ⟨⟨kind, text, p⟩, _ | ⟨next, rest⟩⟩
      · rfl
      · rfl
      · have := hnot p (next :: rest)
        simp_all [negates]
    simp [hnegates]

theorem exists_of_negates (h : negates ts = true) :
    ∃ p next rest, ts = ⟨.name, "not", p⟩ :: next :: rest ∧ next.kind = .name := by
  match ts with
  | ⟨kind, text, p⟩ :: next :: rest =>
      obtain ⟨⟨rfl, rfl⟩, hnext⟩ : (kind = .name ∧ text = "not") ∧ next.kind = .name := by
        simpa [negates] using h
      exact ⟨p, next, rest, rfl, hnext⟩

theorem negates_append_of_negates {rest : List Token} (h : negates ts = true) :
    negates (ts ++ rest) = true := by
  obtain ⟨p, next, more, rfl, hnext⟩ := exists_of_negates h
  simp [negates, hnext]

theorem reads_goal (hts : Proper ts) :
    Reads (fun g used => ∃ d : GoalTree, d.tokens = used ∧ d.value = some g) stop ts
      (goal stop ts) := by
  rw [goal_eq]
  cases hnegates : negates ts with
  | true =>
      obtain ⟨p, next, rest, rfl, hnext⟩ := exists_of_negates hnegates
      refine Reads.after [_] ((reads_relationOrLiteral stop true hts.tail).bind (fun e hr => hr) ?_)
      rintro g used rest' hr heq ⟨d, rfl, hd⟩
      have hnot : negates (goalTokens (some p) d) = true := by
        obtain ⟨t, ts, htokens⟩ := List.exists_cons_of_ne_nil d.tokens_ne_nil
        rw [htokens] at heq
        obtain rfl := (List.cons.inj heq).1
        simp [goalTokens, negates, htokens, hnext]
      change Reads _ _ _ (relationOrLiteral true stop (next :: rest))
      rw [hr]
      exact reads_ok ⟨⟨some p, d, hnot⟩, by simp [GoalTree.tokens, goalTokens], hd⟩
  | false =>
      refine (reads_relationOrLiteral stop false hts).bind (fun e hr => hr) ?_
      rintro g used rest hr rfl ⟨d, rfl, hd⟩
      have hnot : negates (goalTokens none d) = false := by
        refine Bool.eq_false_iff.mpr fun h => ?_
        have happend : negates (d.tokens ++ rest) = true := negates_append_of_negates h
        simp [hnegates] at happend
      simp only [hr]
      exact reads_ok ⟨⟨none, d, hnot⟩, by simp [GoalTree.tokens, goalTokens], hd⟩

/-! ## Clauses, queries and programs -/

theorem reads_moreGoals (n : Nat) (hts : Proper ts) :
    Reads (fun gs used => ∃ more : List (Nat × GoalTree), BodyTree.moreTokens more = used ∧
      more.mapM (fun (_, d) => d.value) = some gs) stop ts (moreGoals n stop ts) := by
  induction n generalizing ts with
  | zero => exact reads_ok ⟨[], rfl, rfl⟩
  | succ n ih =>
      rw [moreGoals]
      split
      · next hcomma =>
        obtain ⟨p, rest, rfl⟩ := exists_punct hts hcomma (by decide)
        refine Reads.after [_] ((reads_goal stop hts.tail).bind (fun e hr => by simp [hr]) ?_)
        rintro g used rest hr rfl ⟨d, rfl, hd⟩
        simp only [List.drop_succ_cons, List.drop_zero, hr]
        refine (ih hts.tail.right).bind (fun e hr => by simp [hr]) ?_
        rintro gs used rest hr' rfl ⟨more, rfl, hmore⟩
        simp only [hr']
        refine reads_ok ⟨(p, d) :: more, by simp [BodyTree.moreTokens], ?_⟩
        simp [List.mapM_cons, hd, hmore]
      · exact reads_ok ⟨[], rfl, rfl⟩

theorem reads_goalList (hts : Proper ts) :
    Reads (fun gs used => ∃ d : BodyTree, d.tokens = used ∧ d.value = some gs) stop ts
      (goalList stop ts) := by
  rw [goalList]
  refine (reads_goal stop hts).bind (fun e hr => by simp [hr]) ?_
  rintro g used rest hr rfl ⟨d, rfl, hd⟩
  simp only [hr]
  refine (reads_moreGoals stop rest.length hts.right).bind (fun e hr => by simp [hr]) ?_
  rintro gs used rest hr' rfl ⟨more, rfl, hmore⟩
  simp only [hr']
  exact reads_ok ⟨⟨d, more⟩, by simp [BodyTree.tokens], by simp [BodyTree.value, hd, hmore]⟩

theorem exists_neck (hts : Proper ts) (h : startsWith ":-" ts = true) :
    ∃ p rest, ts = ⟨.neck, ":-", p⟩ :: rest := by
  obtain ⟨⟨kind, text, p⟩, rest, rfl, rfl⟩ := exists_of_startsWith h
  obtain rfl : kind = .neck := (hts _ List.mem_cons_self).neck rfl
  exact ⟨p, rest, rfl⟩

theorem reads_neck (hts : Proper ts) :
    Reads (fun _ used => ∃ p, used = [⟨.neck, ":-", p⟩]) stop ts (expect ":-" stop ts) := by
  rw [expect]
  split
  · next h =>
    obtain ⟨p, rest, rfl⟩ := exists_neck hts h
    exact ⟨_, rfl, p, rfl⟩
  · exact reads_unexpected _

theorem reads_clause (hts : Proper ts) :
    Reads (fun c used => ∃ d : ClauseTree, d.tokens = used ∧ d.value = some c) stop ts
      (clause stop ts) := by
  rw [clause]
  refine (reads_literal stop hts).bind (fun e hr => by simp [hr]) ?_
  rintro f used rest hr rfl ⟨head, rfl, hhead⟩
  simp only [hr]
  split
  · next hneck =>
    obtain ⟨p, rest, rfl⟩ := exists_neck hts.right hneck
    refine Reads.after [_] ((reads_goalList stop hts.right.tail).bind (fun e hr => by simp [hr]) ?_)
    rintro gs used rest hr' rfl ⟨body, rfl, hbody⟩
    simp only [List.drop_succ_cons, List.drop_zero, hr']
    refine reads_ok ⟨.rule head p body, by simp [ClauseTree.tokens], ?_⟩
    simp [ClauseTree.value, hhead, hbody]
  · exact reads_ok ⟨.fact head, by simp [ClauseTree.tokens], by simp [ClauseTree.value, hhead]⟩

/-- The outcome of a parser of all tokens. -/
def ReadsAll {α : Type} (s : Start α) (stop : Nat) (ts : List Token) : Except Fault α → Prop
  | .ok v => s.Derives ts v
  | .error e => Blames stop ts e

theorem Start.program_value_cons (d : ClauseTree) (p : Nat) (ended : List (ClauseTree × Nat))
    (last : Option ClauseTree) :
    program.value ⟨(d, p) :: ended, last⟩ =
      d.value.bind fun c => (program.value ⟨ended, last⟩).map (c :: ·) := by
  cases hd : d.value with
  | none => simp [program, hd]
  | some c =>
      simp only [program, List.mapM_cons, hd, Option.bind_eq_bind, Option.bind_some,
        Option.pure_def, Option.bind_assoc, Option.map_bind, Function.comp_def, Option.map_some,
        List.cons_append]

theorem readsAll_clauses (n : Nat) (hts : Proper ts) (hn : ts.length ≤ n) :
    ReadsAll Start.program stop ts (clauses n stop ts) := by
  induction n generalizing ts with
  | zero =>
      obtain rfl : ts = [] := List.length_eq_zero_iff.mp (by omega)
      exact ⟨⟨[], none⟩, rfl, rfl⟩
  | succ n ih =>
      rw [clauses]
      split
      · next hempty =>
        obtain rfl : ts = [] := by simpa using hempty
        exact ⟨⟨[], none⟩, rfl, rfl⟩
      · rcases (reads_clause stop hts).cases with ⟨e, hr, he⟩ | ⟨c, used, rest, hr, rfl, d, rfl, hd⟩
        · simp only [hr]
          exact he
        · simp only [hr]
          split
          · next hempty =>
            obtain rfl : rest = [] := by simpa using hempty
            exact ⟨⟨[], some d⟩, by simp [Start.program], by simp [Start.program, hd]⟩
          · rcases (reads_expect stop "." hts.right (by decide)).cases with
              ⟨e, hr', he⟩ | ⟨_, used, rest, hr', rfl, p, rfl⟩
            · simp only [hr']
              exact he.mono (List.subset_append_right _ _)
            · simp only [hr']
              have hrest := ih hts.right.right (by simp at hn; omega)
              cases hmore : clauses n stop rest with
              | error e =>
                  rw [hmore] at hrest
                  exact hrest.mono fun t ht => by simp [ht]
              | ok cs =>
                  rw [hmore] at hrest
                  obtain ⟨⟨ended, last⟩, rfl, hvalue⟩ := hrest
                  refine ⟨⟨(d, p) :: ended, last⟩, by simp [Start.program], ?_⟩
                  simp [Start.program_value_cons, hd, hvalue]

variable {α : Type} {s : Start α}

theorem readsAll_atEnd {used rest : List Token} {v : α} (h : s.Derives used v) :
    ReadsAll s stop (used ++ rest) (atEnd stop v rest) := by
  cases rest with
  | nil =>
      rw [List.append_nil]
      exact h
  | cons t rest =>
      obtain ⟨e, hr, he⟩ := blames_unexpected (α := α) .endOfInput stop (t :: rest)
      rw [atEnd, hr]
      · exact he.mono (List.subset_append_right _ _)
      · simp

theorem exists_skipPeriod (hts : Proper ts) :
    ∃ period, ts = periodTokens period ++ skipPeriod ts := by
  rw [skipPeriod]
  split
  · next hperiod =>
    obtain ⟨p, rest, rfl⟩ := exists_punct hts hperiod (by decide)
    exact ⟨some p, rfl⟩
  · exact ⟨none, rfl⟩

/-- A period may end what was read. -/
theorem readsAll_skipPeriod {used rest : List Token} {v : α} (hrest : Proper rest)
    (h : ∀ period, s.Derives (used ++ periodTokens period) v) :
    ReadsAll s stop (used ++ rest) (atEnd stop v (skipPeriod rest)) := by
  obtain ⟨period, hperiod⟩ := exists_skipPeriod hrest
  have hall : ReadsAll s stop ((used ++ periodTokens period) ++ skipPeriod rest)
      (atEnd stop v (skipPeriod rest)) := readsAll_atEnd stop (h period)
  rwa [List.append_assoc, ← hperiod] at hall

end Grammar

open Grammar

variable {text : String} {ts : List Token} (htext : tokenize text = .ok ts) (hts : Proper ts)
include htext hts

theorem Term.readsAll_parse : ReadsAll Start.term text.length ts (Term.parse text) := by
  rw [parse, htext]
  rcases (reads_expression text.length hts).cases with
    ⟨e, hr, he⟩ | ⟨v, used, rest, hr, rfl, d, rfl, hd⟩
  · simp only [bind, Except.bind, hr]
    exact he
  · simp only [bind, Except.bind, hr]
    exact readsAll_atEnd _ ⟨d, rfl, hd⟩

theorem Fact.readsAll_parse : ReadsAll Start.fact text.length ts (Fact.parse text) := by
  rw [parse, htext]
  rcases (reads_literal text.length hts).cases with
    ⟨e, hr, he⟩ | ⟨v, used, rest, hr, rfl, d, rfl, hd⟩
  · simp only [bind, Except.bind, hr]
    exact he
  · simp only [bind, Except.bind, hr]
    split
    · obtain ⟨e, hr, he⟩ := blames_unexpected (α := Fact) .fact text.length rest
      rw [hr]
      exact he.mono (List.subset_append_right _ _)
    · exact readsAll_skipPeriod _ hts.right fun period => ⟨⟨d, period⟩, rfl, hd⟩

theorem Rule.readsAll_parse (hneck : mentionsNeck text.toList = true) :
    ReadsAll Start.rule text.length ts (Rule.parse text) := by
  rw [parse, if_pos hneck, htext]
  rcases (reads_literal text.length hts).cases with
    ⟨e, hr, he⟩ | ⟨v, used, rest, hr, rfl, d, rfl, hd⟩
  · simp only [bind, Except.bind, hr]
    exact he
  · simp only [bind, Except.bind, hr]
    rcases (reads_neck text.length hts.right).cases with
      ⟨e, hr', he⟩ | ⟨_, used, rest, hr', rfl, p, rfl⟩
    · simp only [hr']
      exact he.mono (List.subset_append_right _ _)
    · simp only [hr']
      rcases (reads_goalList text.length hts.right.right).cases with
        ⟨e, hr'', he⟩ | ⟨gs, used, rest, hr'', rfl, body, rfl, hbody⟩
      · simp only [hr'']
        exact he.mono fun t ht => by simp [ht]
      · simp only [hr'']
        have hrule : d.tokens ++ ([⟨.neck, ":-", p⟩] ++ (body.tokens ++ rest)) =
            (ClauseTree.rule d p body).tokens ++ rest := by
          simp [ClauseTree.tokens]
        rw [hrule]
        exact readsAll_skipPeriod _ hts.right.right.right fun period =>
          ⟨⟨d, p, body, period⟩, rfl, by simp [Start.rule, hd, hbody]⟩

theorem Goal.readsAll_parseQuery (hne : ts ≠ []) :
    ReadsAll Start.query text.length ts (Goal.parseQuery text) := by
  rw [parseQuery, htext]
  rcases (reads_goalList text.length hts).cases with
    ⟨e, hr, he⟩ | ⟨v, used, rest, hr, rfl, d, rfl, hd⟩
  · simp only [bind, Except.bind, hr]
    rw [if_neg (by simpa using hne)]
    exact he
  · simp only [bind, Except.bind, hr]
    rw [if_neg (by simpa using hne)]
    exact readsAll_skipPeriod _ hts.right fun period => ⟨⟨d, period⟩, rfl, hd⟩

theorem Clause.readsAll_parseProgram :
    ReadsAll Start.program text.length ts (Clause.parseProgram text) := by
  rw [parseProgram, htext]
  exact readsAll_clauses text.length ts.length hts (Nat.le_refl _)

end Clausal
