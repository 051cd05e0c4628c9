import Clausal.Arithmetic
import Clausal.Proofs.Bindings.Extension

/-!
# Evaluation and substitution

To evaluate an expression under bindings is to put in the values of its variables and to evaluate
what comes out. An expression that has a value without bindings has no variables, so the value stays
when bindings are extended.
-/

namespace Clausal

namespace Operation

/-- The term of an operation shows only in faults. -/
theorem compute_eq_ok_iff {op : Operation} {t : Term} {a b n : Number} (u : Term) :
    op.compute t a b = .ok n ↔ op.compute u a b = .ok n := by
  rw [compute, compute]
  split
  · simp
  · cases op.result? a b <;> simp

end Operation

namespace Term

theorem evaluateWith_operation {look : String → Except Fault Number} {f : String} {l r : Term}
    {n : Number} :
    (compound f [l, r]).evaluateWith look = .ok n ↔
      ∃ op a b, Operation.ofSymbol? f = some op ∧ l.evaluateWith look = .ok a ∧
        r.evaluateWith look = .ok b ∧ op.compute (.compound f [l, r]) a b = .ok n := by
  rw [evaluateWith]
  cases Operation.ofSymbol? f with
  | none => simp
  | some op =>
      cases l.evaluateWith look with
      | error e => simp
      | ok a => cases r.evaluateWith look <;> simp

/-- Only compound terms with two arguments are evaluated, whatever variables stand for. -/
theorem binary_or_notArithmetic (f : String) (args : List Term) : (∃ l r, args = [l, r]) ∨
    ∀ look, (compound f args).evaluateWith look = .error (notArithmetic (compound f args)) := by
  rcases args with _ | ⟨l, _ | ⟨r, _ | ⟨_, _⟩⟩⟩
  · exact .inr fun _ => rfl
  · exact .inr fun _ => rfl
  · exact .inl ⟨l, r, rfl⟩
  · exact .inr fun _ => rfl

theorem evaluateWith_compound {look : String → Except Fault Number} {f : String} {args : List Term}
    {n : Number} (h : (compound f args).evaluateWith look = .ok n) : ∃ l r, args = [l, r] := by
  refine (binary_or_notArithmetic f args).resolve_right fun hnone => ?_
  simp [hnone] at h

/-- Values can be put in before or while a term is evaluated. -/
theorem evaluateWith_apply_eq_ok_iff {look look' : String → Except Fault Number}
    {θ : String → Term} {t : Term} {n : Number}
    (h : ∀ x ∈ t.vars, ∀ m, look x = .ok m ↔ (θ x).evaluateWith look' = .ok m) :
    t.evaluateWith look = .ok n ↔ (t.apply θ).evaluateWith look' = .ok n := by
  induction t generalizing n with
  | var x => exact h x (by simp [vars]) n
  | atom _ | str _ => simp [evaluateWith, notArithmetic]
  | int _ | float _ => simp [evaluateWith]
  | compound f args ih =>
      have hlen : ∀ {u : Term}, (u = compound f args ∨ u = compound f (args.map (apply θ))) →
          (∃ look, u.evaluateWith look = .ok n) → args.length = 2 := by
        rintro u (rfl | rfl) ⟨look, hu⟩ <;> obtain ⟨l, r, hargs⟩ := evaluateWith_compound hu
        · simp [hargs]
        · simpa using congrArg List.length hargs
      have hpair : args.length = 2 → ((compound f args).evaluateWith look = .ok n ↔
          ((compound f args).apply θ).evaluateWith look' = .ok n) := by
        intro htwo
        obtain ⟨l, r, rfl⟩ := List.length_eq_two.mp htwo
        have hl :=
          fun m => @ih l (by simp) m fun x hx => h x (mem_vars_compound.mpr ⟨l, by simp, hx⟩)
        have hr :=
          fun m => @ih r (by simp) m fun x hx => h x (mem_vars_compound.mpr ⟨r, by simp, hx⟩)
        rw [apply_compound, List.map_cons, List.map_singleton, evaluateWith_operation,
          evaluateWith_operation]
        simp only [hl, hr, Operation.compute_eq_ok_iff (compound f [l.apply θ, r.apply θ])]
      constructor
      · intro hn
        exact (hpair (hlen (.inl rfl) ⟨look, hn⟩)).mp hn
      · intro hn
        exact (hpair (hlen (.inr (apply_compound θ f args)) ⟨look', hn⟩)).mpr hn

/-- Where no variable has a value, only ground terms have one. -/
theorem isGround_of_evaluateWith {look : String → Except Fault Number} {t : Term} {n : Number}
    (hlook : ∀ x m, look x ≠ .ok m) (h : t.evaluateWith look = .ok n) : t.isGround = true := by
  induction t generalizing n with
  | var x => exact (hlook x n h).elim
  | atom _ | int _ | float _ | str _ => rfl
  | compound f args ih =>
      obtain ⟨l, r, rfl⟩ := evaluateWith_compound h
      obtain ⟨op, a, b, _, ha, hb, _⟩ := evaluateWith_operation.mp h
      have hl := ih l (by simp) ha
      have hr := ih r (by simp) hb
      simp [isGround, isGroundAll, hl, hr]

end Term

namespace Bindings

theorem numberOf_empty_ne_ok (k : Nat) (x : String) (n : Number) :
    (∅ : Bindings).numberOf k x ≠ .ok n := by
  cases k with
  | zero => simp [numberOf]
  | succ k => simp [numberOf, deref_of_unbound (get?_empty x), notArithmetic]

theorem isGround_of_evaluate_empty {t : Term} {n : Number}
    (h : (∅ : Bindings).evaluate t = .ok n) : t.isGround = true :=
  Term.isGround_of_evaluateWith (numberOf_empty_ne_ok _) h

namespace Acyclic

variable {b : Bindings} (hb : b.Acyclic)

include hb

theorem numberOf_eq_ok_iff {k : Nat} {x : String} {n : Number} (hk : b.rank x < k) :
    b.numberOf k x = .ok n ↔ (∅ : Bindings).evaluate (b.image x) = .ok n := by
  induction k generalizing x n with
  | zero => omega
  | succ k ih =>
      rw [numberOf]
      rcases hb.deref_cases x with ⟨y, hy, _⟩ | ⟨hne, hrank⟩
      · rw [hy, image_eq_of_deref_var hy]
        have hfree : (∅ : Bindings).evaluate (.var y) ≠ .ok n := numberOf_empty_ne_ok _ y n
        simp [notArithmetic, hfree]
      · rw [hb.image_eq_of_deref_nonvar hne]
        have hvalue := Term.evaluateWith_apply_eq_ok_iff (θ := b.image) (t := b.deref x) (n := n)
          fun y hy m => ih (x := y) (n := m) (by have := hrank y hy; omega)
        rcases hd : b.deref x with y | _ | _ | _ | _ | _
        · exact (hne y hd).elim
        all_goals
          rw [hd] at hvalue
          exact hvalue

/-- Evaluation under bindings is evaluation of the instance that they give. -/
theorem evaluate_eq_ok_iff {t : Term} {n : Number} :
    b.evaluate t = .ok n ↔ (∅ : Bindings).evaluate (t.apply b.image) = .ok n :=
  Term.evaluateWith_apply_eq_ok_iff fun x _ _ =>
    hb.numberOf_eq_ok_iff (Nat.lt_succ_of_le (b.rank_le_count x))

/-- A value is the same under all solutions of the bindings. -/
theorem evaluate_of_solvedBy {θ : String → Term} (hθ : b.SolvedBy θ) {t : Term} {n : Number}
    (h : b.evaluate t = .ok n) : (∅ : Bindings).evaluate (t.apply θ) = .ok n := by
  rw [hb.evaluate_eq_ok_iff] at h
  rw [← hb.apply_image hθ, Term.apply_of_isGround (isGround_of_evaluate_empty h)]
  exact h

/-- A value does not change when bindings are extended. -/
theorem evaluate_of_extends {c : Bindings} (hc : c.Acyclic) (hext : c.Extends b) {t : Term}
    {n : Number} (h : b.evaluate t = .ok n) :
    (∅ : Bindings).evaluate (t.apply c.image) = .ok n :=
  hb.evaluate_of_solvedBy (hc.solvedBy_image.of_extends hext) h

end Acyclic

end Bindings

/-! ## Expressions that have a value -/

/-- A tree of the four operations over numbers. -/
inductive Term.IsArithmetic : Term → Prop
  | int (n : Int) : IsArithmetic (.int n)
  | float (x : Float) : IsArithmetic (.float x)
  | operation {f : String} {op : Operation} {l r : Term} (hop : Operation.ofSymbol? f = some op)
      (hl : IsArithmetic l) (hr : IsArithmetic r) : IsArithmetic (.compound f [l, r])

theorem Term.isArithmetic_of_evaluateWith {look : String → Except Fault Number}
    {t : Term} {n : Number} (hlook : ∀ x m, look x ≠ .ok m) (h : t.evaluateWith look = .ok n) :
    t.IsArithmetic := by
  induction t generalizing n with
  | var x => exact (hlook x n h).elim
  | atom _ | str _ => simp [evaluateWith] at h
  | int m => exact .int m
  | float x => exact .float x
  | compound f args ih =>
      obtain ⟨l, r, rfl⟩ := evaluateWith_compound h
      obtain ⟨op, a, b, hop, ha, hb, _⟩ := evaluateWith_operation.mp h
      exact .operation hop (ih l (by simp) ha) (ih r (by simp) hb)

/-- An expression has a value under acyclic bindings if and only if the expression with all
variables put in has the same value without bindings, bit for bit if it is a floating-point number;
and then what comes out is a tree of the four operations over numbers, without variables. -/
theorem Bindings.evaluate_iff_of_substitute {b : Bindings} (hb : b.Acyclic) (t : Term) :
    ∃ t', b.substitute? t = some t' ∧
      (∀ v, b.evaluate t = .ok v ↔ (∅ : Bindings).evaluate t' = .ok v) ∧
      ∀ v, b.evaluate t = .ok v → t'.IsArithmetic ∧ t'.isGround = true := by
  refine ⟨t.apply b.image, hb.substitute?_eq t, fun v => hb.evaluate_eq_ok_iff, fun v hv => ?_⟩
  have hvalue := hb.evaluate_eq_ok_iff.mp hv
  exact ⟨Term.isArithmetic_of_evaluateWith (numberOf_empty_ne_ok _) hvalue,
    isGround_of_evaluate_empty hvalue⟩

/-- A product that is a negative zero, through a chain of variables and an
expression that has one. -/
theorem Bindings.evaluate_iff_of_substitute_chain :
    let b := (((∅ : Bindings).insert "Z" (.int 2)).insert "Y" (.var "Z")).insert "X"
      (.compound "-" [.var "Y", .int 5])
    let t' := Term.compound "*" [.compound "-" [.int 2, .int 5], .float 0.0]
    b.Acyclic ∧ b.substitute? (.compound "*" [.var "X", .float 0.0]) = some t' ∧
      (∅ : Bindings).evaluate t' = .ok (.float (Float.ofBits 0x8000000000000000)) ∧
      t'.IsArithmetic := by
  intro b t'
  have hb : b.Acyclic :=
    ((acyclic_empty.insert rfl (by decide)).insert rfl (by decide)).insert rfl (by decide)
  have hvalue : b.evaluate (.compound "*" [.var "X", .float 0.0]) =
      .ok (.float (Float.ofBits 0x8000000000000000)) := rfl
  obtain ⟨u, hu, hiff, htree⟩ :=
    evaluate_iff_of_substitute hb (.compound "*" [.var "X", .float 0.0])
  obtain rfl : t' = u := Option.some.inj (Eq.trans rfl hu)
  exact ⟨hb, hu, (hiff _).mp hvalue, (htree _ hvalue).1⟩

end Clausal
