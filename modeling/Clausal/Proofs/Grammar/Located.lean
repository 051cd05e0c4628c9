import Clausal.Proofs.Grammar.Lexing
import Clausal.Proofs.Grammar.Positions
import Clausal.Proofs.Grammar.Shift

/-!
# Where parsing fails

Parsing ends on every text: what the parsers do does not depend on the bounds on nesting and on
rounds by which they are defined. A text that is not read has a fault with a place, which is the
start of a token, the end of the text, or a character that starts no token. The faults without a
place are a query without goals and a rule without a neck; the one other failure is an integer
with too many digits.
-/

namespace Clausal

namespace Grammar

/-! ## Bounds -/

/-- From the number of tokens on, the bound of a parser makes no difference. -/
def Settles {α : Type} (parser : Nat → Nat → List Token → Except Fault α) : Prop :=
  ∀ stop ts n, Proper ts → ts.length ≤ n → parser n stop ts = parser ts.length stop ts

theorem Follows.settles {α : Type} {parser : Nat → Parser α}
    (h : ∀ {n m m'}, n ≤ m → n ≤ m' → Follows 0 n (parser m) (parser m')) : Settles parser :=
  fun _ _ _ hts hn => (h (Nat.le_refl _) hn).eq hts (Nat.le_refl _)

/-- Expressions are sums of products of factors that hold expressions, however deep they nest. -/
theorem expression_eq (stop : Nat) {ts : List Token} (hts : Proper ts) :
    expression stop ts =
      joined Level.sum.operators (joined Level.product.operators (factor expression)) stop ts := by
  cases hlen : ts.length with
  | zero =>
      obtain rfl : ts = [] := List.length_eq_zero_iff.mp hlen
      rfl
  | succ n =>
      rw [expression, hlen]
      refine ((follows_sum ?_ (follows_expression_of_lt (Nat.lt_succ_self n))).eq hts hlen.le).symm
      exact fun stop ts hts => reads_expressionWithin (n + 1) hts

/-- The bounds in the definitions of the parsers are never reached: parentheses nest as deep as they
are written, and repetitions go on as long as something follows. -/
structure BoundsSettle : Prop where
  nesting : Settles fun n => expressionWithin (n + 1)
  unfolds : ∀ stop ts, Proper ts → expression stop ts =
    joined Level.sum.operators (joined Level.product.operators (factor expression)) stop ts
  arguments : Settles (moreArguments expression)
  products : ∀ left, Settles fun n => operands Level.product.operators (factor expression) n left
  sums : ∀ left, Settles fun n =>
    operands Level.sum.operators (joined Level.product.operators (factor expression)) n left
  goals : Settles moreGoals
  clauses : Settles clauses

theorem boundsSettle : BoundsSettle := by
  have hreads : ∀ stop ts, Proper ts → Reads (Symbol.joined .sum).Derives stop ts
      (expression stop ts) :=
    fun stop ts hts => reads_expression stop hts
  have hproduct : ∀ stop ts, Proper ts →
      Reads (Symbol.operand .product).Derives stop ts (factor expression stop ts) :=
    fun stop ts hts => reads_productOperand (hreads stop) hts
  have hfactor : ∀ n, Follows 0 n (factor expression) (factor expression) :=
    fun n => (follows_factor hreads (follows_expression 0 n)).mono (Nat.le_succ n)
  constructor
  · exact Follows.settles fun h h' => follows_expressionWithin (Nat.lt_succ_of_le h)
      (Nat.lt_succ_of_le h')
  · exact fun stop ts hts => expression_eq stop hts
  · exact Follows.settles (follows_moreArguments hreads (follows_expression 0 _))
  · exact fun left => Follows.settles fun h h' => follows_operands hproduct (hfactor _) h h' left
  · exact fun left => Follows.settles fun h h' =>
      follows_operands (fun stop ts hts => reads_sumOperand (hreads stop) hts)
        (follows_joined hproduct (hfactor _)) h h' left
  · exact Follows.settles (follows_moreGoals 0)
  · intro stop ts n hts hn
    have hshift : clauses n (0 + stop) (ts.map (Token.shift 0)) = _ :=
      clauses_shift 0 hts (Nat.le_refl _) hn
    rw [Nat.zero_add, Token.shift_zero, List.map_id, Fault.shift_zero] at hshift
    rw [hshift]
    cases clauses ts.length stop ts <;> rfl

end Grammar

open Grammar

/-! ## Places -/

/-- The places that a fault of a text can name: its end, the start of a token, and the character at
which it cannot be cut into tokens. -/
def IsFaultPlace (text : String) (p : Nat) : Prop :=
  p = text.length ∨ (∃ ts, tokenize text = .ok ts ∧ ∃ t ∈ ts, t.pos = p) ∨
    ∃ c, Unreadable text.toList 0 p c

/-- The outcome of reading a text: a value, a fault that names a place of the text, or an
integer that is too long. Texts with a certain flaw have a fault without a place, and no
other texts have. -/
def Located {α : Type} (text : String) (flawed : Prop) : Except Fault α → Prop
  | .ok _ => ¬ flawed
  | .error (.parse cause) =>
      match cause.position? with
      | none => flawed
      | some p => ¬ flawed ∧ p ≤ text.length ∧ IsFaultPlace text p
  | .error (.longNumeral digits) =>
      ¬ flawed ∧ ∃ ts, tokenize text = .ok ts ∧ ∃ t ∈ ts, t.IsLongInteger ∧ digits = t.text.length
  | .error _ => False

theorem Grammar.Tokenized.pos_lt {cs : List Char} {start : Nat} {ts : List Token}
    (h : Tokenized cs start ts) {t : Token} (ht : t ∈ ts) : t.pos < cs.length := by
  by_contra hle
  have htext := h.stretch_eq t ht
  rw [stretch, List.drop_eq_nil_iff.mpr (by omega), List.take_nil] at htext
  exact h.nonempty t ht (String.toList_injective htext.symm)

section Outcomes

variable {α : Type} {text : String} {flawed : Prop} (hflawed : ¬ flawed)
include hflawed

theorem located_of_readsAll {s : Start α} {ts : List Token} {r : Except Fault α}
    (htokens : tokenize text = .ok ts) (hts : Tokenized text.toList 0 ts)
    (h : ReadsAll s text.length ts r) : Located text flawed r := by
  match r with
  | .ok v => exact hflawed
  | .error (.parse cause) =>
      obtain ⟨p, hp, hplace⟩ := h
      simp only [Located, hp]
      refine ⟨hflawed, ?_⟩
      obtain rfl | ⟨t, ht, rfl⟩ := hplace
      · exact ⟨le_rfl, .inl rfl⟩
      · rw [← String.length_toList]
        exact ⟨(hts.pos_lt ht).le, .inr (.inl ⟨ts, htokens, t, ht, rfl⟩)⟩
  | .error (.longNumeral digits) => exact ⟨hflawed, ts, htokens, h⟩

theorem located_of_unreadable {p : Nat} {c : Char} (h : Unreadable text.toList 0 p c) :
    Located (α := α) text flawed (.error (.parse (.unexpectedChar c p))) := by
  refine ⟨hflawed, ?_, .inr (.inr ⟨c, h⟩)⟩
  rw [← String.length_toList]
  exact (List.getElem?_eq_some_iff.mp h.getElem?).1.le

end Outcomes

/-- A text that cannot be cut into tokens fails where it cannot be cut, so only the others
are left to read. -/
theorem located_of_tokens {α : Type} {text : String} {flawed : Prop} {r : Except Fault α}
    (hflawed : flawed → ∃ ts, tokenize text = .ok ts)
    (herror : ∀ e, tokenize text = .error e → r = .error e)
    (h : ∀ ts, tokenize text = .ok ts → Tokenized text.toList 0 ts → Located text flawed r) :
    Located text flawed r := by
  obtain ⟨ts, htokens, hts⟩ | ⟨p, c, hcut, hc⟩ := tokensFrom_cases (Nat.zero_le text.toList.length)
  · exact h ts htokens hts
  · rw [herror _ hcut]
    refine located_of_unreadable (fun h => ?_) hc
    obtain ⟨ts, htokens⟩ := hflawed h
    cases htokens.symm.trans hcut

theorem mentionsNeck_iff {cs : List Char} : mentionsNeck cs = true ↔ [':', '-'] <:+: cs := by
  constructor
  · intro h
    fun_induction mentionsNeck cs with
    | case1 cs => exact ⟨[], cs, rfl⟩
    | case2 c cs _ ih => exact (ih h).trans (List.suffix_cons c cs).isInfix
    | case3 => cases h
  · rintro ⟨before, after, rfl⟩
    rw [List.append_assoc]
    exact mentionsNeck_of_suffix (List.suffix_append _ _) rfl

variable (text : String)

theorem Term.located_parse : Located text False (Term.parse text) :=
  located_of_tokens False.elim (fun e he => by rw [Term.parse, he]; rfl) fun _ htokens hts =>
    located_of_readsAll id htokens hts (Term.readsAll_parse htokens (proper_of_tokenize htokens))

theorem Fact.located_parse : Located text False (Fact.parse text) :=
  located_of_tokens False.elim (fun e he => by rw [Fact.parse, he]; rfl) fun _ htokens hts =>
    located_of_readsAll id htokens hts (Fact.readsAll_parse htokens (proper_of_tokenize htokens))

theorem Rule.located_parse : Located text (¬ [':', '-'] <:+: text.toList) (Rule.parse text) := by
  by_cases hneck : mentionsNeck text.toList = true
  · have hmentions : ¬ ¬ [':', '-'] <:+: text.toList := not_not.mpr (mentionsNeck_iff.mp hneck)
    refine located_of_tokens (fun h => absurd h hmentions) ?_ fun _ htokens hts =>
      located_of_readsAll hmentions htokens hts
        (Rule.readsAll_parse htokens (proper_of_tokenize htokens) hneck)
    intro e he
    rw [Rule.parse, if_pos hneck, he]
    rfl
  · rw [Rule.parse, if_neg hneck]
    exact fun h => hneck (mentionsNeck_iff.mpr h)

theorem Goal.located_parseQuery : Located text (tokenize text = .ok []) (Goal.parseQuery text) := by
  refine located_of_tokens (fun h => ⟨[], h⟩) (fun e he => by rw [Goal.parseQuery, he]; rfl) ?_
  intro ts htokens hts
  by_cases hne : ts = []
  · subst hne
    have hempty : Goal.parseQuery text = .error (.parse .emptyQuery) := by
      rw [Goal.parseQuery, htokens]
      rfl
    rw [hempty]
    exact htokens
  · have hsome : tokenize text ≠ .ok [] := by
      rw [htokens]
      exact fun h => hne (Except.ok.inj h)
    exact located_of_readsAll hsome htokens hts
      (Goal.readsAll_parseQuery htokens (proper_of_tokenize htokens) hne)

theorem Clause.located_parseProgram : Located text False (Clause.parseProgram text) :=
  located_of_tokens False.elim (fun e he => by rw [Clause.parseProgram, he]; rfl)
    fun _ htokens hts => located_of_readsAll id htokens hts
      (Clause.readsAll_parseProgram htokens (proper_of_tokenize htokens))

/-- Parsing ends on every text, and it gives a value or fails in a place of the text. The fault has
no place exactly for a rule without a neck and for a query without goals. -/
theorem parse_located :
    Located text False (Term.parse text) ∧ Located text False (Fact.parse text) ∧
      Located text (¬ [':', '-'] <:+: text.toList) (Rule.parse text) ∧
      Located text (tokenize text = .ok []) (Goal.parseQuery text) ∧
      Located text False (Clause.parseProgram text) ∧ BoundsSettle :=
  ⟨Term.located_parse text, Fact.located_parse text, Rule.located_parse text,
    Goal.located_parseQuery text, Clause.located_parseProgram text, boundsSettle⟩

end Clausal
