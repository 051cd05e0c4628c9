import Clausal.Proofs.Arithmetic
import Clausal.Proofs.Bindings.Chains
import Clausal.Proofs.Decimal.Rounding
import Clausal.Proofs.Search.Faults
import Clausal.Proofs.Unify.Alike
import Clausal.Proofs.Unify.MostGeneral

/-!
# Built-in predicates fail

A built-in predicate that does not apply to its arguments fails: it finds no number, divides by zero
or has a result that is too large, and there are no bindings for it. One thing does stop it.
Unification shows the terms that it compares, evaluation shows an expression that has no value, and
an integer that is too long has no written form. Only the integers that the arguments reach through
the bindings count, and a value of exact arithmetic. Comparisons show nothing.
-/

namespace Clausal

/-! ## Bindings with text -/

namespace Bindings

/-- The part of acyclic bindings in which everything has text. -/
theorem Acyclic.exists_written {b : Bindings} (hb : b.Acyclic) :
    ∃ c : Bindings, b.Alike (fun x => (b.image x).hasText = true) c ∧
      c.Values fun t => t.hasText = true := by
  obtain ⟨c, hc⟩ := b.exists_restriction fun x => (b.image x).hasText = true
  -- a name whose full value has text leads to such names only
  have hvalue : ∀ x t, (b.image x).hasText = true → b.get? x = some t →
      t.hasText = true ∧ ∀ y ∈ t.vars, (b.image y).hasText = true := by
    intro x t hx ht
    rw [hb.image_of_bound ht] at hx
    exact Term.hasText_apply.mp hx
  refine ⟨c, ⟨hb, hb.of_extends fun x t ht => ?_, fun x hx => ?_, fun x t hx ht => ?_⟩,
    fun x t ht => ?_⟩
  · rw [hc] at ht
    split at ht
    · exact ht
    · simp at ht
  · rw [hc, if_pos hx]
  · exact (hvalue x t hx ht).2
  · rw [hc] at ht
    split at ht
    · next hx => exact (hvalue x t hx ht).1
    · simp at ht

end Bindings

/-! ## Unification -/

/-- Bindings that extend the given ones, or none. -/
def FailsOrExtends (b : Bindings) (r : Except Fault (Option Bindings)) : Prop :=
  ∃ o, r = .ok o ∧ ∀ c, o = some c → c.Extends b

namespace Unifier

open Unify

variable {u : Unifier} {b : Bindings} {s t : Term}

theorem unify_ne_unwritable_of_values (hu : u.occursCheck = true) (h : Writable s t b) :
    u.unify s t b ≠ .error .unwritable := by
  have hwritten : Written (u.run s t b).2 := by
    rw [(run_eq_terms hu h.acyclic s t).1]
    exact written_terms _ h (by simp [Written])
  rw [unify, conclude, if_pos (List.all_eq_true.mpr hwritten)]
  cases (u.run s t b).1 <;> simp

theorem unify_ne_unwritable (hu : u.occursCheck = true) (hb : b.Acyclic)
    (hs : (s.apply b.image).hasText = true) (ht : (t.apply b.image).hasText = true) :
    u.unify s t b ≠ .error .unwritable := by
  rw [Term.hasText_apply] at hs ht
  obtain ⟨c, halike, hvalues⟩ := hb.exists_written
  have hsame := alikeOr_unify hu halike hs.2 ht.2
  have hne := unify_ne_unwritable_of_values (u := u) hu ⟨halike.acyclic', hs.1, ht.1, hvalues⟩
  intro h
  rw [h] at hsame
  generalize u.unify s t c = r at hsame hne
  cases hsame
  exact hne rfl

theorem unify_failsOrExtends (hu : u.occursCheck = true) (hb : b.Acyclic) (s t : Term) :
    FailsOrExtends b (u.unify s t b) ∨ u.unify s t b = .error .unwritable ∧
      ((s.apply b.image).hasText = false ∨ (t.apply b.image).hasText = false) := by
  cases h : u.unify s t b with
  | ok o =>
      refine .inl ⟨o, rfl, ?_⟩
      rintro c rfl
      exact (moves_of_unify hu hb h).extends_bindings hb
  | error e =>
      obtain rfl : e = .unwritable := (fault_of_unify h).resolve_right fun hend => hend.2 ⟨hu, hb⟩
      refine .inr ⟨rfl, ?_⟩
      by_contra htext
      obtain ⟨hs, ht⟩ := not_or.mp htext
      exact unify_ne_unwritable hu hb (by simpa using hs) (by simpa using ht) h

end Unifier

/-! ## Evaluation -/

theorem notArithmetic_ne_unwritable {t : Term} (ht : t.hasText = true) :
    notArithmetic t ≠ .unwritable := by
  simp [notArithmetic, ht]

theorem Operation.compute_ne_unwritable {op : Operation} {t : Term} (ht : t.hasText = true)
    (a b : Number) :
    op.compute t a b ≠ .error .unwritable := by
  rw [compute]
  split
  · simp
  · split
    · simp
    · simp [overflowIn, ht]

theorem Term.evaluateWith_ne_unwritable {look : String → Except Fault Number} {t : Term}
    (ht : t.hasText = true) (hlook : ∀ x ∈ t.vars, look x ≠ .error .unwritable) :
    t.evaluateWith look ≠ .error .unwritable := by
  induction t with
  | var x => exact hlook x (by simp [vars])
  | int _ | float _ => simp [evaluateWith]
  | atom _ | str _ => simp [evaluateWith, notArithmetic_ne_unwritable ht]
  | compound f args ih =>
      rcases binary_or_notArithmetic f args with ⟨l, r, rfl⟩ | hnone
      · have hpart : ∀ a ∈ [l, r], a.evaluateWith look ≠ .error .unwritable := fun a ha =>
          ih a ha (hereditary_hasText f _ ht a ha) fun x hx => hlook x
            (mem_vars_compound.mpr ⟨a, ha, hx⟩)
        rw [evaluateWith]
        split
        · simp
        · split
          · next e hl => exact hl ▸ hpart l (by simp)
          · split
            · next e hr => exact hr ▸ hpart r (by simp)
            · exact Operation.compute_ne_unwritable ht _ _
      · simp [hnone, notArithmetic_ne_unwritable ht]

namespace Bindings.Acyclic

variable {b : Bindings} (hb : b.Acyclic)

include hb

theorem numberOf_ne_unwritable {k : Nat} {x : String} (hx : (b.image x).hasText = true) :
    b.numberOf k x ≠ .error .unwritable := by
  induction k generalizing x with
  | zero => simp [numberOf]
  | succ k ih =>
      rcases hb.deref_cases x with ⟨y, hy, _⟩ | ⟨hend, _⟩
      · simp [numberOf, hy, notArithmetic, Term.hasText]
      · rw [hb.image_eq_of_deref_nonvar hend, Term.hasText_apply] at hx
        rw [numberOf]
        split
        · next y hy => exact (hend y hy).elim
        · exact Term.evaluateWith_ne_unwritable hx.1 fun y hy => ih (hx.2 y hy)

theorem evaluate_ne_unwritable {t : Term} (ht : (t.apply b.image).hasText = true) :
    b.evaluate t ≠ .error .unwritable := by
  rw [Term.hasText_apply] at ht
  exact Term.evaluateWith_ne_unwritable ht.1 fun x hx => hb.numberOf_ne_unwritable (ht.2 x hx)

theorem evaluate_resolve_eq_ok_iff {t : Term} {n : Number} :
    b.evaluate (b.resolve t) = .ok n ↔ b.evaluate t = .ok n := by
  rw [hb.evaluate_eq_ok_iff, hb.evaluate_eq_ok_iff, hb.apply_resolve hb.solvedBy_image]

end Bindings.Acyclic

/-! ## Values -/

open Decimal in
theorem Decimal.natAbs_whole_lt {x : Float} {n : Int} (h : whole? x = some n) :
    n.natAbs < 2 ^ Number.digitLimit := by
  rw [whole?] at h
  split at h
  · next p hp =>
    obtain ⟨hnormal, hfinite, _⟩ := isNormal_of_view hp
    have hexponent : p.exponent < 973 := by
      have hmagnitude : (p.exponent + 1074).toNat * 2 ^ 52 + p.mantissa < 2047 * 2 ^ 52 := hfinite
      omega
    have hsigned : n.natAbs = p.fraction.1 / p.fraction.2 := by
      rw [Parts.whole?] at h
      split at h
      · rw [← Option.some.inj h, Parts.truncate, Parts.signed]
        split
        · rw [Int.natAbs_neg, Int.natAbs_natCast]
        · rw [Int.natAbs_natCast]
      · simp at h
    have hnumerator : p.fraction.1 < 2 ^ Number.digitLimit := by
      rw [Parts.fraction]
      split
      · next k hk =>
        have hlimit : 53 + k ≤ Number.digitLimit := by
          have hk' : (k : Int) < 973 := by simpa [hk] using hexponent
          rw [Number.digitLimit]
          omega
        calc p.mantissa * 2 ^ k
          _ < 2 ^ 53 * 2 ^ k := Nat.mul_lt_mul_of_pos_right hnormal.lt (Nat.two_pow_pos k)
          _ = 2 ^ (53 + k) := (Nat.pow_add 2 53 k).symm
          _ ≤ 2 ^ Number.digitLimit := Nat.pow_le_pow_right (by omega) hlimit
      · exact hnormal.lt.trans (Nat.pow_lt_pow_right (by omega) (by decide))
    rw [hsigned]
    exact (Nat.div_le_self _ _).trans_lt hnumerator
  · simp at h

theorem Number.hasText_normalize_float (x : Float) :
    (Number.float x).normalize.toTerm.hasText = true := by
  rw [normalize]
  split
  · next n hn =>
    have hbound : n.natAbs < unwritable :=
      (Decimal.natAbs_whole_lt hn).trans_le (Nat.pow_le_pow_left (by omega) digitLimit)
    rw [toTerm, Term.hasText, hasText]
    exact decide_eq_true hbound
  · rfl

/-- A value without written form comes from exact arithmetic: a whole floating-point number has not
so many digits. -/
theorem Number.exists_int_of_unwritten {n : Number} (h : n.normalize.toTerm.hasText = false) :
    ∃ m, n = .int m ∧ hasText m = false := by
  cases n with
  | int m => exact ⟨m, rfl, h⟩
  | float x => simp [hasText_normalize_float] at h

/-! ## Goals -/

namespace Builtin

/-- A goal that has to show an integer without written form: one that its arguments reach, or one in
the value of its expression. An expression with a value is not shown. -/
inductive Unwritten (b : Bindings) (g : Goal) : Prop
  | arguments {l r : Term} (hpred : g.predicate = "=") (hargs : g.args = [l, r])
      (h : (l.apply b.image).hasText = false ∨ (r.apply b.image).hasText = false)
  | expression {l r : Term} (hpred : g.predicate = "is") (hargs : g.args = [l, r])
      (hnone : ∀ n, b.evaluate r ≠ .ok n) (h : (r.apply b.image).hasText = false)
  | value {l r : Term} {n : Number} (hpred : g.predicate = "is") (hargs : g.args = [l, r])
      (hn : b.evaluate r = .ok n)
      (h : (l.apply b.image).hasText = false ∨ ∃ m, n = .int m ∧ Number.hasText m = false)

variable {u : Unifier} (hu : u.occursCheck = true) {b : Bindings} (hb : b.Acyclic)

include hu hb

theorem failsOrExtends_is (l r : Term) (negated : Bool) :
    FailsOrExtends b (solve u ⟨"is", [l, r], negated⟩ b) ∨
      solve u ⟨"is", [l, r], negated⟩ b = .error .unwritable ∧
      Unwritten b ⟨"is", [l, r], negated⟩ := by
  have hequal : ¬ "is" = "=" := by decide
  have hsymbol : Comparison.ofSymbol? "is" = none := rfl
  simp only [solve, solveResolved, hequal, hsymbol, if_false, if_true, valueTerm?]
  cases hvalue : b.evaluate (b.resolve r) with
  | ok n =>
      refine (Unifier.unify_failsOrExtends hu hb (b.resolve l) n.normalize.toTerm).imp_right ?_
      rintro ⟨hfault, htext⟩
      rw [hb.apply_resolve hb.solvedBy_image, apply_toTerm] at htext
      exact ⟨hfault, .value rfl rfl (hb.evaluate_resolve_eq_ok_iff.mp hvalue)
        (htext.imp_right Number.exists_int_of_unwritten)⟩
  | error e =>
      rcases Bindings.fault_of_evaluate hvalue with (⟨cause, rfl⟩ | rfl) | ⟨_, hcycle⟩
      · exact .inl ⟨none, rfl, by simp⟩
      · have hnone : ∀ n, b.evaluate r ≠ .ok n := by
          intro n hn
          simp [hb.evaluate_resolve_eq_ok_iff.mpr hn] at hvalue
        refine .inr ⟨rfl, .expression rfl rfl hnone ?_⟩
        by_contra htext
        refine hb.evaluate_ne_unwritable (t := b.resolve r) ?_ hvalue
        rw [hb.apply_resolve hb.solvedBy_image]
        simpa using htext
      · exact (hcycle hb).elim

omit hu hb in
theorem failsOrExtends_comparison {p : String} (heq : p ≠ "=") (his : p ≠ "is") (l r : Term) :
    FailsOrExtends b (solveResolved u p l r b) := by
  rw [solveResolved, if_neg heq]
  split
  · split
    · refine ⟨_, rfl, fun c hc => ?_⟩
      split at hc
      · obtain rfl : b = c := by simpa using hc
        exact .refl b
      · simp at hc
    · exact ⟨none, rfl, by simp⟩
  · rw [if_neg his]
    exact ⟨none, rfl, by simp⟩

/-- A goal with a built-in predicate fails or extends the bindings, whatever its arguments are,
unless it has to show an integer without written form. -/
theorem solve_failsOrExtends (g : Goal) :
    FailsOrExtends b (solve u g b) ∨ solve u g b = .error .unwritable ∧ Unwritten b g := by
  obtain ⟨p, args, negated⟩ := g
  match args with
  | [] | [_] | _ :: _ :: _ :: _ => exact .inl ⟨none, rfl, by simp⟩
  | [l, r] =>
      by_cases heq : p = "="
      · subst heq
        refine (Unifier.unify_failsOrExtends hu hb (b.resolve l) (b.resolve r)).imp_right ?_
        rintro ⟨hfault, htext⟩
        rw [hb.apply_resolve hb.solvedBy_image, hb.apply_resolve hb.solvedBy_image] at htext
        exact ⟨hfault, .arguments rfl rfl htext⟩
      · by_cases his : p = "is"
        · subst his
          exact failsOrExtends_is hu hb l r negated
        · exact .inl (failsOrExtends_comparison heq his _ _)

omit hu hb

/-- A product of two integers with a text that has none itself. -/
theorem solve_unwritten_product :
    solve {} ⟨"is", [.int 5, .compound "*" [.int (10 ^ 4299), .int 10]], false⟩ ∅ =
      .error .unwritable :=
  eq_unwritable (by decide +kernel)

/-- A comparison with an integer that is too long to be shown, and a difference of two
infinite products, which is not a number, under bindings with such an integer that the
difference does not reach. -/
theorem solve_failsOrExtends_extremes :
    let b := (∅ : Bindings).insert "Y" (.int (10 ^ 4300))
    let product := Term.compound "*" [.float 1e200, .float 1e200]
    b.Acyclic ∧ FailsOrExtends b (solve {} ⟨"<", [.float 1e200, .var "Y"], false⟩ b) ∧
      FailsOrExtends b
        (solve {} ⟨"is", [.var "X", .compound "-" [product, product]], false⟩ b) := by
  intro b product
  have hb : b.Acyclic := Bindings.acyclic_empty.insert_of_occurs? (Bindings.get?_empty "Y") rfl
  have hfree : b.get? "X" = none := by
    rw [Bindings.get?_insert, if_neg (by decide), Bindings.get?_empty]
  have hvalue : b.evaluate (.compound "-" [product, product]) =
    .ok (.float (1e200 * 1e200 - 1e200 * 1e200)) := rfl
  refine ⟨hb, ?_, ?_⟩
  · refine (solve_failsOrExtends rfl hb _).resolve_right ?_
    rintro ⟨_, h⟩
    cases h with
    | arguments hpred | expression hpred | value hpred => exact absurd hpred (by decide)
  · refine (solve_failsOrExtends rfl hb _).resolve_right ?_
    rintro ⟨_, h⟩
    cases h with
    | arguments hpred => exact absurd hpred (by decide)
    | expression _ hargs hnone =>
        obtain ⟨rfl, rfl⟩ : Term.var "X" = _ ∧ Term.compound "-" [product, product] = _ := by
          simpa using hargs
        exact hnone _ hvalue
    | value _ hargs hn htext =>
        obtain ⟨rfl, rfl⟩ : Term.var "X" = _ ∧ Term.compound "-" [product, product] = _ := by
          simpa using hargs
        obtain rfl := Except.ok.inj (hvalue.symm.trans hn)
        rcases htext with hleft | ⟨m, hint, _⟩
        · simp [Term.apply, Bindings.image_of_unbound hfree, Term.hasText] at hleft
        · simp at hint

end Builtin

end Clausal
