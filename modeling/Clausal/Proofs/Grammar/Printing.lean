import Clausal.Clause.Text
import Clausal.Proofs.Decimal.RoundTrip
import Clausal.Proofs.Grammar.Completeness
import Clausal.Proofs.Grammar.Cutting
import Clausal.Proofs.Grammar.Lexing
import Clausal.Proofs.Term.Leaves

/-!
# Printed clauses are read back

A term is printable if its names are names of the language, its integers have sixty-four bits,
its floating-point numbers are finite, and nothing in its strings needs a backslash. The text of
a printable term, fact, rule or list of goals is cut into the tokens of a syntax tree, and the
value of the tree is what was written. Operators in front of their arguments are compound terms
there and never infix.
-/

namespace Clausal

open Grammar

/-! ## Printable terms and clauses -/

namespace Grammar

/-- A text that is a name as a whole. -/
def isName (s : String) : Bool := name? s.toList == some s.toList

/-- A name that is not that of a variable. -/
def isConstantName (s : String) : Bool := isName s && !Text.startsUpper s

end Grammar

namespace Term

mutual

def isPrintable : Term → Bool
  | .var x => isName x && Text.startsUpper x
  | .atom a => isConstantName a
  | .int n => isInt64 n
  | .float x => x.isFinite
  | .str s => s.toList.all fun c => c != '"' && c != '\\'
  | .compound f args =>
    (isConstantName f || functorSymbols.contains f) && !args.isEmpty && isPrintableAll args

def isPrintableAll : List Term → Bool
  | [] => true
  | t :: ts => isPrintable t && isPrintableAll ts

end

theorem isPrintableAll_eq (ts : List Term) : isPrintableAll ts = ts.all isPrintable := by
  induction ts with
  | nil => rfl
  | cons t ts ih => simp [isPrintableAll, ih]

theorem charsAll_eq (ts : List Term) : charsAll ts = ts.map chars := by
  induction ts with
  | nil => rfl
  | cons t ts ih => simp [charsAll, ih]

theorem applied_of_ne (name : String) {args : List Term} (hne : args ≠ []) :
    applied name (charsAll args) =
      name.toList ++ ('(' :: joinChars [',', ' '] (charsAll args) ++ [')']) := by
  obtain ⟨a, args, rfl⟩ := List.exists_cons_of_ne_nil hne
  simp [applied, charsAll]

theorem joinChars_cons (sep x : List Char) (xs : List (List Char)) :
    joinChars sep (x :: xs) = x ++ xs.flatMap (sep ++ ·) := by
  induction xs generalizing x with
  | nil => simp [joinChars]
  | cons y ys ih => simp [joinChars, ih]

end Term

def Fact.isPrintable (f : Fact) : Bool :=
  isConstantName f.predicate && f.args.all Term.isPrintable

/-- An operator is the predicate only of goals with arguments and without a negation. -/
def Goal.isPrintable (g : Goal) : Bool :=
  g.args.all Term.isPrintable && (isConstantName g.predicate ||
    (functorSymbols.contains g.predicate && !g.args.isEmpty && !g.negated))

def Rule.isPrintable (r : Rule) : Bool :=
  r.head.isPrintable && !r.body.isEmpty && r.body.all Goal.isPrintable

/-! ## Syntax trees of printed terms -/

namespace Grammar

/-- The characters that may follow a term. -/
def EndsTerm (c : Char) : Prop := c ∈ [',', ')']

/-- The characters that may follow a name with or without arguments. -/
def EndsLiteral (c : Char) : Prop := c ∈ [',', ')', '.', ' ']

/-- The characters are cut into the tokens of a syntax tree with the value. -/
def Symbol.Writes (s : Symbol) (follows : Char → Prop) (pos : Nat) (cs : List Char)
    (v : s.Meaning) : Prop :=
  ∃ d : Tree s, d.value = some v ∧ Cuts follows pos cs d.tokens

theorem EndsTerm.endsLiteral {c : Char} (h : EndsTerm c) : EndsLiteral c :=
  List.mem_append_left ['.', ' '] h

theorem EndsTerm.not_number {c : Char} (h : EndsTerm c) :
    Text.isDigit c = false ∧ c ∉ ['.', 'e', 'E'] := by
  have htable :
      ([',', ')'].all fun c => !Text.isDigit c && !(['.', 'e', 'E'].contains c)) = true := by
    decide
  simpa using List.all_eq_true.mp htable c h

theorem EndsLiteral.not_word {c : Char} (h : EndsLiteral c) : Text.isWordChar c = false := by
  have htable : ([',', ')', '.', ' '].all fun c => !Text.isWordChar c) = true := by decide
  simpa using List.all_eq_true.mp htable c h

/-- A factor as a whole expression. -/
def Tree.sum (d : Tree .factor) : ExprTree := .joined (.product (.joined (.factor d) .done)) .done

@[simp] theorem Tree.tokens_sum (d : Tree .factor) : d.sum.tokens = d.tokens := by
  simp [sum]

@[simp] theorem Tree.value_sum (d : Tree .factor) : d.sum.value = d.value := by
  cases h : d.value <;> simp [sum, h]

theorem writes_sum {P : Char → Prop} {pos : Nat} {cs : List Char} {t : Term}
    (h : Symbol.factor.Writes P pos cs t) : (Symbol.joined .sum).Writes P pos cs t := by
  obtain ⟨d, hvalue, hcuts⟩ := h
  exact ⟨d.sum, d.value_sum.trans hvalue, d.tokens_sum.symm ▸ hcuts⟩

/-- A numeral with or without a sign in front. -/
theorem writes_numeral {negative : Bool} (w : Decimal.Spelling) {t : Term}
    (h : numeral negative (String.ofList w.chars) = .ok t) (pos : Nat) :
    Symbol.factor.Writes EndsTerm pos (Decimal.withSign negative w.chars) t := by
  have hnumber : ∀ p, Cuts EndsTerm p w.chars [⟨.number, String.ofList w.chars, p⟩] :=
    fun p => (cuts_number w p).mono fun c hc => hc.not_number
  cases negative with
  | false =>
      exact ⟨.number (String.ofList w.chars) pos, by simp [h, Except.toOption], hnumber pos⟩
  | true =>
      refine ⟨.negative pos (String.ofList w.chars) (pos + 1),
        by simp [h, Except.toOption], ?_⟩
      have hminus := cuts_op (show "-" ∈ functorSymbols by decide) pos
      obtain ⟨c, cs, hchars, hc⟩ := w.exists_head
      have hhead : ∀ c ∈ w.chars.head?, c ≠ '=' ∧ c ≠ '<' := by
        rw [hchars]
        rintro _ ⟨⟩
        constructor <;> (rintro rfl; exact absurd hc (by decide))
      change Cuts EndsTerm pos ("-".toList ++ w.chars) ([⟨.op, "-", pos⟩] ++ _)
      exact hminus.append (hnumber (pos + 1)) hhead (by simp [hchars])

theorem unescape_of_plain {cs : List Char} (h : ∀ c ∈ cs, c ≠ '"' ∧ c ≠ '\\') :
    unescape cs = cs := by
  induction cs with
  | nil => rfl
  | cons c cs ih =>
      have htail := ih fun c' hc' => h c' (List.mem_cons_of_mem c hc')
      have hslash := (h c List.mem_cons_self).2
      rw [unescape.eq_def]
      split <;> simp_all

theorem writes_str {s : String}
    (h : s.toList.all (fun c => c != '"' && c != '\\') = true) (pos : Nat) :
    Symbol.factor.Writes (fun _ => True) pos ('"' :: s.toList ++ ['"']) (.str s) := by
  have hplain : ∀ c ∈ s.toList, c ≠ '"' ∧ c ≠ '\\' := by simpa using h
  refine ⟨.string (String.ofList ('"' :: s.toList ++ ['"'])) pos, ?_, cuts_string hplain pos⟩
  simp [stringValue, unescape_of_plain hplain]

theorem endsTerm_of_pieces {α : Type} {f : α → List Char} {xs : List α} :
    ∀ c ∈ (xs.flatMap fun x => [',', ' '] ++ f x).head?, EndsTerm c := by
  cases xs with
  | nil => simp
  | cons x xs =>
      rintro _ ⟨⟩
      simp [EndsTerm]

/-- A head as a term. -/
def HeadTree.toFactor (d : HeadTree) : Tree .factor :=
  d.args.elim (.constant d.name d.hname d.p) (.applied d.name d.hname d.p)

theorem HeadTree.tokens_toFactor (d : HeadTree) : d.toFactor.tokens = d.tokens := by
  obtain ⟨name, hname, p, args⟩ := d
  cases args <;> rfl

theorem HeadTree.value_toFactor (d : HeadTree) {f : Fact} (h : d.value = some f) :
    d.toFactor.value = some (nameApplied f.predicate f.args) := by
  obtain ⟨name, hname, p, args⟩ := d
  cases args with
  | none =>
      obtain rfl := Option.some.inj h
      rfl
  | some args =>
      obtain ⟨values, hvalues, rfl⟩ := Option.map_eq_some_iff.mp h
      simp [toFactor, hvalues]

section Arguments

variable {args : List Term} (hargs : ∀ a ∈ args, ∀ pos, Symbol.factor.Writes EndsTerm pos a.chars a)
include hargs

theorem writes_moreArguments (pos : Nat) :
    Symbol.moreArguments.Writes EndsTerm pos
      (args.flatMap fun a => [',', ' '] ++ a.chars) args := by
  induction args generalizing pos with
  | nil => exact ⟨.noMore, rfl, .nil⟩
  | cons a args ih =>
      obtain ⟨next, hnext, hcuts⟩ := writes_sum (hargs a List.mem_cons_self (pos + 2))
      obtain ⟨more, hmore, hcuts'⟩ := ih (fun a ha => hargs a (List.mem_cons_of_mem _ ha))
        (pos + 2 + a.chars.length)
      refine ⟨.comma pos next more, by simp [hnext, hmore], ?_⟩
      rw [List.flatMap_cons, List.append_assoc]
      exact (cuts_comma pos).append_free (hcuts.append hcuts' endsTerm_of_pieces fun _ _ h => h)

/-- Arguments in parentheses. -/
theorem writes_arguments (hne : args ≠ []) (pos : Nat) :
    Symbol.arguments.Writes (fun _ => True) pos
      ('(' :: Term.joinChars [',', ' '] (Term.charsAll args) ++ [')']) args := by
  obtain ⟨a, args, rfl⟩ := List.exists_cons_of_ne_nil hne
  obtain ⟨first, hfirst, hcuts⟩ := writes_sum (hargs a List.mem_cons_self (pos + 1))
  obtain ⟨more, hmore, hcuts'⟩ :=
    writes_moreArguments (fun a ha => hargs a (List.mem_cons_of_mem _ ha))
    (pos + 1 + a.chars.length)
  have hinner := hcuts.append hcuts' endsTerm_of_pieces fun _ _ h => h
  rw [← List.flatMap_map, ← Term.joinChars_cons, ← List.map_cons, ← Term.charsAll_eq] at hinner
  let q := pos + 1 + (Term.joinChars [',', ' '] (Term.charsAll (a :: args))).length
  refine ⟨.arguments pos first more q, by simp [hfirst, hmore], ?_⟩
  have hopen := cuts_punct (show '(' ∈ ['(', ')', ',', '.'] by decide) pos
  have hclose := cuts_punct (show ')' ∈ ['(', ')', ',', '.'] by decide) q
  have hall := hopen.append_free (hinner.append hclose (by simp [EndsTerm]) (by simp))
  rw [List.append_assoc] at hall
  exact hall

/-- A constant name with or without arguments. -/
theorem exists_head {name : String} (hname : isConstantName name = true) (pos : Nat) :
    ∃ d : HeadTree, d.value = some ⟨name, args⟩ ∧
      Cuts EndsLiteral pos (Term.applied name (Term.charsAll args)) d.tokens := by
  obtain ⟨hisName, hlower⟩ : isName name = true ∧ Text.startsUpper name = false := by
    simpa [isConstantName] using hname
  have hcut := cuts_name (beq_iff_eq.mp hisName) pos
  cases args with
  | nil => exact ⟨⟨name, hlower, pos, none⟩, rfl, hcut.mono fun c hc => hc.not_word⟩
  | cons a args =>
      obtain ⟨d, hd, hcuts⟩ := writes_arguments hargs (by simp) (pos + name.toList.length)
      refine ⟨⟨name, hlower, pos, some d⟩, by simp [HeadTree.value, hd], ?_⟩
      rw [Term.applied_of_ne name (by simp)]
      exact hcut.append (hcuts.mono fun _ _ => trivial) (by simp; decide) (by simp)

/-- An operator in front of its arguments. -/
theorem exists_prefixed {op : String} (hop : op ∈ functorSymbols) (hne : args ≠ []) (pos : Nat) :
    ∃ d : Tree .factor, d.value = some (.compound op args) ∧
      Cuts (fun _ => True) pos (Term.applied op (Term.charsAll args)) d.tokens ∧
      ∃ ts, d.tokens = ⟨.op, op, pos⟩ :: ts := by
  have hsame : (relation? op).getD op = op := by
    have htable : (functorSymbols.all fun op => (relation? op).getD op == op) = true := by decide
    exact beq_iff_eq.mp (List.all_eq_true.mp htable op hop)
  obtain ⟨d, hd, hcuts⟩ := writes_arguments hargs hne (pos + op.toList.length)
  refine ⟨.prefixed op pos d, by simp [hd, hsame], ?_, d.tokens, rfl⟩
  rw [Term.applied_of_ne op hne]
  exact (cuts_op hop pos).append hcuts (by simp) (by simp)

end Arguments

theorem natAbs_lt_of_isInt64 {n : Int} (h : isInt64 n = true) : n.natAbs < 10 ^ 19 := by
  simp only [isInt64, Bool.and_eq_true, decide_eq_true_eq] at h
  omega

theorem writes_int {n : Int} (hn : isInt64 n = true) (pos : Nat) :
    Symbol.factor.Writes EndsTerm pos (Number.intText n) (.int n) := by
  let w : Decimal.Spelling := ⟨Nat.toDigits 10 n.natAbs, [], none, Nat.toDigits_ne_nil,
    fun c hc => Text.isDigit_of_mem_toDigits hc, by simp, by simp⟩
  have hchars : w.chars = Nat.toDigits 10 n.natAbs := by
    simp [w, Decimal.Spelling.chars, Decimal.Spelling.fractionChars, Decimal.Spelling.exponentChars]
  have hdigits : (Nat.toDigits 10 n.natAbs).all Text.isDigit = true :=
    List.all_eq_true.mpr fun c hc => Text.isDigit_of_mem_toDigits hc
  have hlength : ¬ Number.digitLimit < (Nat.toDigits 10 n.natAbs).length := by
    have hle : (Nat.toDigits 10 n.natAbs).length ≤ 19 :=
      (Nat.length_toDigits_le_iff (by decide) (by decide)).mpr (natAbs_lt_of_isInt64 hn)
    rw [Number.digitLimit]
    omega
  have hnumeral : numeral (decide (n < 0)) (String.ofList w.chars) = .ok (.int n) := by
    have hvalue : (if decide (n < 0) then -(n.natAbs : Int) else n.natAbs) = n := by
      simp only [decide_eq_true_eq]
      split <;> omega
    rw [numeral, String.toList_ofList, hchars, Text.digitsValue_toDigits]
    simp only [hvalue]
    rw [if_pos hdigits, if_neg hlength, if_pos hn]
  have hwrites := writes_numeral w hnumeral pos
  rwa [hchars] at hwrites

theorem writes_float {x : Float} (hx : x.isFinite = true) (pos : Nat) :
    Symbol.factor.Writes EndsTerm pos (Decimal.floatText x).toList (.float x) := by
  obtain ⟨negative, w, htext, hdigits, hvalue⟩ := Decimal.exists_spelling_floatText hx
  have hnumeral : numeral negative (String.ofList w.chars) = .ok (.float x) := by
    rw [numeral, String.toList_ofList, hdigits, hvalue]
    rfl
  rw [htext, String.toList_ofList]
  exact writes_numeral w hnumeral pos

/-- A printable term is read back from its text. -/
theorem writes_term {t : Term} (ht : t.isPrintable = true) (pos : Nat) :
    Symbol.factor.Writes EndsTerm pos t.chars t := by
  induction t generalizing pos with
  | var x =>
      obtain ⟨hisName, hupper⟩ := Bool.and_eq_true_iff.mp ht
      exact ⟨.var x hupper pos, rfl,
        (cuts_name (beq_iff_eq.mp hisName) pos).mono fun c hc => hc.endsLiteral.not_word⟩
  | atom a =>
      obtain ⟨d, hd, hcuts⟩ := exists_head (fun a (ha : a ∈ []) => by simp at ha) ht pos
      rw [← d.tokens_toFactor] at hcuts
      exact ⟨d.toFactor, d.value_toFactor hd, hcuts.mono fun c hc => hc.endsLiteral⟩
  | int n => exact writes_int ht pos
  | float x => exact writes_float ht pos
  | str s =>
      obtain ⟨d, hd, hcuts⟩ := writes_str ht pos
      exact ⟨d, hd, hcuts.mono fun _ _ => trivial⟩
  | compound f args ih =>
      obtain ⟨⟨hf, hne⟩, hall⟩ : ((isConstantName f = true ∨ f ∈ functorSymbols) ∧ args ≠ []) ∧
          ∀ a ∈ args, a.isPrintable = true := by
        simpa [Term.isPrintable, Term.isPrintableAll_eq] using ht
      have hargs : ∀ a ∈ args, ∀ pos, Symbol.factor.Writes EndsTerm pos a.chars a :=
        fun a ha => ih a ha (hall a ha)
      rcases hf with hf | hf
      · obtain ⟨d, hd, hcuts⟩ := exists_head hargs hf pos
        obtain ⟨a, args, rfl⟩ := List.exists_cons_of_ne_nil hne
        rw [← d.tokens_toFactor] at hcuts
        exact ⟨d.toFactor, d.value_toFactor hd, hcuts.mono fun c hc => hc.endsLiteral⟩
      · obtain ⟨d, hd, hcuts, -⟩ := exists_prefixed hargs hf hne pos
        exact ⟨d, hd, hcuts.mono fun _ _ => trivial⟩

/-! ## Syntax trees of printed clauses -/

/-- A goal without a relation is a single factor. -/
def StatementTree.ofFactor (d : Tree .factor) : StatementTree := ⟨d.sum, none⟩

theorem goalTokens_ofFactor (negation : Option Nat) (d : Tree .factor) :
    goalTokens negation (.ofFactor d) = negation.elim [] (fun p => [⟨.name, "not", p⟩]) ++
      d.tokens := by
  simp [goalTokens, StatementTree.tokens, StatementTree.ofFactor]

theorem StatementTree.value_ofFactor {d : Tree .factor} {name : String} {args : List Term}
    (hd : d.value = some (nameApplied name args)) (negated : Bool) :
    (ofFactor d).value negated = some ⟨name, args, negated⟩ := by
  cases args <;> simp [ofFactor, value, hd, nameApplied]

theorem HeadTree.negates_tokens (d : HeadTree) : negates d.tokens = false := by
  obtain ⟨name, hname, p, args⟩ := d
  cases args with
  | none => rfl
  | some args =>
      obtain ⟨q, ts, htokens⟩ := args.tokens_arguments
      simp [tokens, htokens, negates]

/-- A printable goal is read back, whether its predicate is `not`, or an operator, or negated. -/
theorem exists_goal {g : Goal} (hg : g.isPrintable = true) (pos : Nat) :
    ∃ d : GoalTree, d.value = some g ∧ Cuts EndsLiteral pos g.chars d.tokens := by
  obtain ⟨predicate, args, negated⟩ := g
  obtain ⟨hall, hpredicate⟩ : (∀ a ∈ args, a.isPrintable = true) ∧
      (isConstantName predicate = true ∨ (predicate ∈ functorSymbols ∧ args ≠ []) ∧
      negated = false) := by
    simpa [Goal.isPrintable] using hg
  have hargs : ∀ a ∈ args, ∀ pos, Symbol.factor.Writes EndsTerm pos a.chars a :=
    fun a ha => writes_term (hall a ha)
  rcases hpredicate with hname | ⟨⟨hop, hne⟩, rfl⟩
  · cases negated with
    | false =>
        -- Nothing or a parenthesis follows the name, so even `not` is a predicate here.
        obtain ⟨d, hd, hcuts⟩ := exists_head hargs hname pos
        have htokens : goalTokens none (.ofFactor d.toFactor) = d.tokens := by
          rw [goalTokens_ofFactor, d.tokens_toFactor]
          rfl
        exact ⟨⟨none, .ofFactor d.toFactor, by rw [htokens]; exact d.negates_tokens⟩,
          StatementTree.value_ofFactor (d.value_toFactor hd) false, htokens.symm ▸ hcuts⟩
    | true =>
        -- The name of the predicate makes a negation of the word in front of it.
        obtain ⟨d, hd, hcuts⟩ := exists_head hargs hname (pos + 4)
        have htokens : goalTokens (some pos) (.ofFactor d.toFactor) = ⟨.name, "not", pos⟩ ::
            d.tokens := by
          rw [goalTokens_ofFactor, d.tokens_toFactor]
          rfl
        have hnot := cuts_name (show name? "not".toList = some "not".toList by decide) pos
        have hboth : Cuts EndsLiteral pos (Goal.chars ⟨predicate, args, true⟩)
            (⟨.name, "not", pos⟩ :: d.tokens) :=
          hnot.append ((cuts_space (pos + 3)).append_free hcuts) (by simp; decide) (by simp)
        exact ⟨⟨some pos, .ofFactor d.toFactor, by rw [htokens]; rfl⟩,
          StatementTree.value_ofFactor (d.value_toFactor hd) true, htokens.symm ▸ hboth⟩
  · obtain ⟨d, hd, hcuts, ts, hts⟩ := exists_prefixed hargs hop hne pos
    have htokens : goalTokens none (.ofFactor d) = d.tokens := goalTokens_ofFactor none d
    have hnegates : negates d.tokens = false := by
      rw [hts]
      cases ts <;> rfl
    obtain ⟨a, args, rfl⟩ := List.exists_cons_of_ne_nil hne
    exact ⟨⟨none, .ofFactor d, by rw [htokens]; exact hnegates⟩,
      StatementTree.value_ofFactor hd false, htokens.symm ▸ hcuts.mono fun _ _ => trivial⟩

theorem exists_moreGoals {gs : List Goal} (hgs : ∀ g ∈ gs, g.isPrintable = true) (pos : Nat) :
    ∃ more : List (Nat × GoalTree), more.mapM (fun (_, d) => d.value) = some gs ∧
      Cuts EndsLiteral pos (gs.flatMap fun g => [',', ' '] ++ g.chars)
      (BodyTree.moreTokens more) := by
  induction gs generalizing pos with
  | nil => exact ⟨[], rfl, .nil⟩
  | cons g gs ih =>
      obtain ⟨d, hd, hcuts⟩ := exists_goal (hgs g List.mem_cons_self) (pos + 2)
      obtain ⟨more, hmore, hcuts'⟩ := ih (fun g hg => hgs g (List.mem_cons_of_mem _ hg))
        (pos + 2 + g.chars.length)
      refine ⟨(pos, d) :: more, by simp [hd, hmore], ?_⟩
      have hpieces := hcuts.append hcuts' (fun c hc => (endsTerm_of_pieces c hc).endsLiteral)
        fun _ _ h => h
      rw [List.flatMap_cons, List.append_assoc]
      exact (cuts_comma pos).append_free hpieces

theorem exists_body {gs : List Goal} (hne : gs ≠ [])
    (hgs : ∀ g ∈ gs, g.isPrintable = true) (pos : Nat) :
    ∃ d : BodyTree, d.value = some gs ∧ Cuts EndsLiteral pos (Goal.charsList gs) d.tokens := by
  obtain ⟨g, gs, rfl⟩ := List.exists_cons_of_ne_nil hne
  obtain ⟨first, hfirst, hcuts⟩ := exists_goal (hgs g List.mem_cons_self) pos
  obtain ⟨more, hmore, hcuts'⟩ := exists_moreGoals (fun g hg => hgs g (List.mem_cons_of_mem _ hg))
    (pos + g.chars.length)
  refine ⟨⟨first, more⟩, by simp [BodyTree.value, hfirst, hmore], ?_⟩
  rw [Goal.charsList, List.map_cons, Term.joinChars_cons, List.flatMap_map]
  exact hcuts.append hcuts' (fun c hc => (endsTerm_of_pieces c hc).endsLiteral) fun _ _ h => h

end Grammar

/-! ## Written and read back -/

theorem Number.hasText_of_isInt64 {n : Int} (h : isInt64 n = true) : Number.hasText n = true := by
  have hle : 10 ^ 19 ≤ Number.unwritable := Nat.pow_le_pow_right (by decide) (by decide)
  rw [hasText, decide_eq_true_eq]
  exact Nat.lt_of_lt_of_le (natAbs_lt_of_isInt64 h) hle

theorem Term.hasText_of_isPrintable {t : Term} (ht : t.isPrintable = true) : t.hasText = true := by
  induction t with
  | int n => exact Number.hasText_of_isInt64 ht
  | compound f args ih =>
      obtain ⟨_, hall⟩ : _ ∧ ∀ a ∈ args, a.isPrintable = true := by
        simpa [isPrintable, isPrintableAll_eq] using ht
      rw [hasText, hasTextAll_eq, List.all_eq_true]
      exact fun a ha => ih a ha (hall a ha)
  | _ => rfl

theorem Term.hasTextAll_of_isPrintable {ts : List Term} (h : ts.all isPrintable = true) :
    hasTextAll ts = true := by
  rw [hasTextAll_eq, List.all_eq_true]
  exact fun t ht => hasText_of_isPrintable (List.all_eq_true.mp h t ht)

theorem Goal.hasText_of_isPrintable {g : Goal} (hg : g.isPrintable = true) : g.hasText = true :=
  Term.hasTextAll_of_isPrintable (Bool.and_eq_true_iff.mp hg).1

/-- What is written is read as what it was. -/
def ReadsBack {α : Type} (write : α → Except Fault String)
    (parse : String → Except Fault α) (a : α) : Prop :=
  ∃ text, write a = .ok text ∧ parse text = .ok a

theorem Term.readsBack {t : Term} (ht : t.isPrintable = true) :
    ReadsBack Term.write Term.parse t := by
  obtain ⟨d, hd, hcuts⟩ := writes_sum (writes_term ht 0)
  refine ⟨t.text, by rw [write, if_pos (hasText_of_isPrintable ht)], ?_⟩
  exact Term.parse_of_derives hcuts.tokenize_eq (proper_of_tokenize hcuts.tokenize_eq) ⟨d, rfl, hd⟩

theorem Fact.exists_head {f : Fact} (hf : f.isPrintable = true) :
    f.hasText = true ∧ ∃ d : HeadTree, d.value = some f ∧
      Cuts EndsLiteral 0 f.literalChars d.tokens := by
  obtain ⟨hname, hall⟩ := Bool.and_eq_true_iff.mp hf
  have hargs := fun a ha => writes_term (List.all_eq_true.mp hall a ha)
  exact ⟨Term.hasTextAll_of_isPrintable hall, Grammar.exists_head hargs hname 0⟩

theorem Fact.readsBack {f : Fact} (hf : f.isPrintable = true) :
    ReadsBack Fact.write Fact.parse f := by
  obtain ⟨htext, d, hd, hcuts⟩ := f.exists_head hf
  have hchars : Cuts _ 0 f.chars _ := hcuts.append (cuts_period _) (by simp [EndsLiteral]) (by simp)
  refine ⟨f.text, by rw [write, if_pos htext], ?_⟩
  exact Fact.parse_of_derives hchars.tokenize_eq (proper_of_tokenize hchars.tokenize_eq)
    ⟨⟨d, some _⟩, rfl, hd⟩

theorem Rule.exists_tree {head : Fact} {body : List Goal} (hhead : head.isPrintable = true)
    (hne : body ≠ []) (hbody : ∀ g ∈ body, g.isPrintable = true) :
    ∃ d : RuleTree, Start.rule.value d = some ⟨head, body⟩ ∧
      Cuts (fun _ => True) 0 (chars ⟨head, body⟩) (Start.rule.tokens d) := by
  obtain ⟨-, d, hd, hcuts⟩ := head.exists_head hhead
  let neck := 0 + head.literalChars.length + 1
  obtain ⟨d', hd', hcuts'⟩ := exists_body hne hbody (neck + 3)
  let period := neck + 3 + (Goal.charsList body).length
  have hrest := (cuts_space (neck + 2)).append_free
    (hcuts'.append (cuts_period period) (by simp [EndsLiteral]) (by simp))
  have hneck :=
    (cuts_space (0 + head.literalChars.length)).append_free ((cuts_neck neck).append_free hrest)
  have hchars : chars ⟨head, body⟩ = head.literalChars ++ ([' '] ++ ([':', '-'] ++ ([' '] ++
      (Goal.charsList body ++ ['.'])))) := by
    simp [chars, hne]
  have htokens : Start.rule.tokens ⟨d, neck, d', some period⟩ =
      d.tokens ++
      ([] ++ ([⟨.neck, ":-", neck⟩] ++ ([] ++ (d'.tokens ++ [⟨.punct, ".", period⟩])))) := by
    simp [Start.rule, ClauseTree.tokens, periodTokens]
  refine ⟨⟨d, neck, d', some period⟩, by simp [Start.rule, hd, hd'], ?_⟩
  rw [hchars, htokens]
  exact hcuts.append hneck (by simp [EndsLiteral]) (by simp)

theorem Rule.readsBack {r : Rule} (hr : r.isPrintable = true) :
    ReadsBack Rule.write Rule.parse r := by
  obtain ⟨head, body⟩ := r
  obtain ⟨⟨hhead, hne⟩, hbody⟩ : (head.isPrintable = true ∧ body ≠ []) ∧
      ∀ g ∈ body, g.isPrintable = true := by
    simpa [isPrintable] using hr
  have htext : hasText ⟨head, body⟩ = true := Bool.and_eq_true_iff.mpr ⟨(head.exists_head hhead).1,
    List.all_eq_true.mpr fun g hg => Goal.hasText_of_isPrintable (hbody g hg)⟩
  obtain ⟨d, hd, hcuts⟩ := exists_tree hhead hne hbody
  have hneck : ⟨.neck, ":-", d.neck⟩ ∈ Start.rule.tokens d := by
    simp [Start.rule, ClauseTree.tokens]
  have htokenize := hcuts.tokenize_eq
  refine ⟨text ⟨head, body⟩, by rw [write, if_pos htext], ?_⟩
  exact Rule.parse_of_derives htokenize (proper_of_tokenize htokenize)
    (mentionsNeck_of_mem htokenize hneck rfl) ⟨d, rfl, hd⟩

theorem Goal.readsBack {gs : List Goal} (hne : gs ≠ []) (hgs : ∀ g ∈ gs, g.isPrintable = true) :
    ReadsBack Goal.writeList Goal.parseQuery gs := by
  obtain ⟨d, hd, hcuts⟩ := exists_body hne hgs 0
  have htext : gs.all hasText = true :=
    List.all_eq_true.mpr fun g hg => hasText_of_isPrintable (hgs g hg)
  refine ⟨String.ofList (charsList gs), by rw [writeList, if_pos htext], ?_⟩
  have htokens : Start.query.tokens ⟨d, none⟩ = d.tokens := List.append_nil _
  exact Goal.parseQuery_of_derives hcuts.tokenize_eq (proper_of_tokenize hcuts.tokenize_eq)
    ⟨⟨d, none⟩, htokens, hd⟩

/-- Printable terms, facts and rules and lists of printable goals have a text, which is read as
what was written. -/
theorem readsBack_of_isPrintable :
    (∀ t : Term, t.isPrintable = true → ReadsBack Term.write Term.parse t) ∧
    (∀ f : Fact, f.isPrintable = true → ReadsBack Fact.write Fact.parse f) ∧
    (∀ r : Rule, r.isPrintable = true → ReadsBack Rule.write Rule.parse r) ∧
    ∀ gs : List Goal, gs ≠ [] → (∀ g ∈ gs, g.isPrintable = true) →
      ReadsBack Goal.writeList Goal.parseQuery gs :=
  ⟨fun _ => Term.readsBack, fun _ => Fact.readsBack, fun _ => Rule.readsBack,
    fun _ => Goal.readsBack⟩

/-- A rule whose text has signs, quotes, operators and both uses of `not`. -/
theorem readsBack_of_isPrintable_sample :
    let t : Term :=
      .compound "-" [.int (-9223372036854775808), .float (Float.ofBits 0x8000000000000000)]
    let r : Rule := ⟨⟨"total", [.var "X", .str "a, %b"]⟩,
      [⟨"not", [], true⟩, ⟨"is", [.var "X", t], false⟩, ⟨"<=", [t, t], false⟩, ⟨"not", [], false⟩]⟩
    ReadsBack Term.write Term.parse t ∧ ReadsBack Fact.write Fact.parse r.head ∧
      ReadsBack Rule.write Rule.parse r ∧ ReadsBack Goal.writeList Goal.parseQuery r.body := by
  obtain ⟨hterm, hfact, hrule, hquery⟩ := readsBack_of_isPrintable
  exact ⟨hterm _ (by decide +kernel), hfact _ (by decide +kernel), hrule _ (by decide +kernel),
    hquery _ (by simp) (by decide +kernel)⟩

end Clausal
