import Clausal.Proofs.Arithmetic
import Clausal.Proofs.Unify.Invariants

/-!
# Bindings that are alike on some names

Whatever is read off bindings for a term is read off the names that the term reaches. Bindings that
are the same on a set of names, which their values do not leave, cannot be told apart by terms over
these names: chains end alike, images, occurs checks and values of expressions are the same. Binding
one of the names in both keeps it so. What the bindings hold for other names is of no account.
-/

namespace Clausal

/-- All variables of the term are among the names. -/
def Term.Within (R : String → Prop) (t : Term) : Prop := ∀ x ∈ t.vars, R x

namespace Term

variable {R : String → Prop}

theorem within_var {x : String} : (var x).Within R ↔ R x := by simp [Within, vars]

theorem hereditary_within (R : String → Prop) : Hereditary (Within R) :=
  fun _ _ h a ha x hx => h x (mem_vars_compound.mpr ⟨a, ha, hx⟩)

theorem within_of_isGround {t : Term} (h : t.isGround = true) : t.Within R := by
  intro x hx
  exact (isGround_iff.mp h x hx).elim

theorem evaluateWith_congr {look look' : String → Except Fault Number} {t : Term}
    (h : ∀ x ∈ t.vars, look' x = look x) : t.evaluateWith look' = t.evaluateWith look := by
  induction t with
  | var x => exact h x (by simp [vars])
  | atom _ | int _ | float _ | str _ => rfl
  | compound f args ih =>
      rcases binary_or_notArithmetic f args with ⟨l, r, rfl⟩ | hnone
      · have hl := ih l (by simp) fun x hx => h x (mem_vars_compound.mpr ⟨l, by simp, hx⟩)
        have hr := ih r (by simp) fun x hx => h x (mem_vars_compound.mpr ⟨r, by simp, hx⟩)
        rw [evaluateWith, evaluateWith, hl, hr]
      · rw [hnone, hnone]

end Term

namespace Bindings

/-- Acyclic bindings that are the same on names which their values do not leave. -/
structure Alike (R : String → Prop) (c c' : Bindings) : Prop where
  acyclic : c.Acyclic
  acyclic' : c'.Acyclic
  same : ∀ x, R x → c'.get? x = c.get? x
  closed : ∀ x t, R x → c.get? x = some t → t.Within R

namespace Alike

theorem refl {b : Bindings} (hb : b.Acyclic) : b.Alike (fun _ => True) b :=
  ⟨hb, hb, fun _ _ => rfl, fun _ _ _ _ _ _ => trivial⟩

variable {R : String → Prop} {c c' : Bindings} (h : c.Alike R c')

include h

theorem deref_eq {x : String} (hx : R x) : c'.deref x = c.deref x ∧ (c.deref x).Within R := by
  have hsame := h.same x hx
  induction x using h.acyclic.induction with
  | unbound x hfree =>
      rw [deref_of_unbound hfree, deref_of_unbound (hsame.trans hfree)]
      exact ⟨rfl, Term.within_var.mpr hx⟩
  | bound x t ht ih =>
      have hwithin := h.closed x t hx ht
      rw [h.acyclic.deref_of_bound ht, h.acyclic'.deref_of_bound (hsame.trans ht)]
      rcases t.var_or_nonvar with ⟨y, rfl⟩ | hne
      · have hy := Term.within_var.mp hwithin
        exact ih y (by simp [Term.vars]) hy (h.same y hy)
      · rw [resolve_of_nonvar hne, resolve_of_nonvar hne]
        exact ⟨rfl, hwithin⟩

theorem resolve_eq {t : Term} (ht : t.Within R) :
    c'.resolve t = c.resolve t ∧ (c.resolve t).Within R := by
  rcases t.var_or_nonvar with ⟨x, rfl⟩ | hne
  · exact h.deref_eq (Term.within_var.mp ht)
  · rw [resolve_of_nonvar hne, resolve_of_nonvar hne]
    exact ⟨rfl, ht⟩

theorem image_eq {x : String} (hx : R x) : c'.image x = c.image x := by
  have hsame := h.same x hx
  induction x using h.acyclic.induction with
  | unbound x hfree => rw [image_of_unbound hfree, image_of_unbound (hsame.trans hfree)]
  | bound x t ht ih =>
      rw [h.acyclic.image_of_bound ht, h.acyclic'.image_of_bound (hsame.trans ht)]
      refine Term.apply_congr fun y hy => ?_
      have hR := h.closed x t hx ht y hy
      exact ih y hy hR (h.same y hR)

theorem apply_image_eq {t : Term} (ht : t.Within R) : t.apply c'.image = t.apply c.image :=
  Term.apply_congr fun x hx => h.image_eq (ht x hx)

theorem occurs?_eq (v : String) {t : Term} (ht : t.Within R) : c'.occurs? v t = c.occurs? v t := by
  rw [h.acyclic.occurs?_eq, h.acyclic'.occurs?_eq, h.apply_image_eq ht]

theorem insert {x : String} {t : Term} (hx : R x) (ht : t.Within R) (hfree : c.get? x = none)
    (hocc : c.occurs? x t = some false) : (c.insert x t).Alike R (c'.insert x t) where
  acyclic := h.acyclic.insert_of_occurs? hfree hocc
  acyclic' :=
    h.acyclic'.insert_of_occurs? ((h.same x hx).trans hfree) ((h.occurs?_eq x ht).trans hocc)
  same y hy := by rw [get?_insert, get?_insert, h.same y hy]
  closed y u hy hu := by
    rw [get?_insert] at hu
    split at hu
    · obtain rfl := Option.some.inj hu
      exact ht
    · exact h.closed y u hy hu

theorem numberOf_eq {x : String} (hx : R x) {k k' : Nat} (hk : c.rank x < k)
    (hk' : c'.rank x < k') :
    c'.numberOf k' x = c.numberOf k x := by
  induction k generalizing k' x with
  | zero => omega
  | succ k ih =>
      obtain ⟨k', rfl⟩ := Nat.exists_eq_add_one_of_ne_zero (Nat.ne_zero_of_lt hk')
      -- The counts of entries differ, and so do the two bounds; ranks fall on both sides.
      obtain ⟨heq, hwithin⟩ := h.deref_eq hx
      rw [numberOf, numberOf, heq]
      rcases h.acyclic.deref_cases x with ⟨y, hy, _⟩ | ⟨hne, hrank⟩
      · rw [hy]
      · have hne' : ¬ ∃ y, c'.deref x = .var y ∧ c'.get? y = none := by
          rintro ⟨y, hy, _⟩
          exact hne y (heq.symm.trans hy)
        obtain ⟨-, hrank'⟩ := (h.acyclic'.deref_cases x).resolve_left hne'
        rw [heq] at hrank'
        have hvalue : (c.deref x).evaluateWith (c'.numberOf k') =
            (c.deref x).evaluateWith (c.numberOf k) :=
          Term.evaluateWith_congr fun y hy => ih (hwithin y hy) (by have := hrank y hy; omega)
            (by have := hrank' y hy; omega)
        rcases hd : c.deref x with y | _ | _ | _ | _ | _
        · rfl
        all_goals
          rw [hd] at hvalue
          exact hvalue

theorem evaluate_eq {t : Term} (ht : t.Within R) : c'.evaluate t = c.evaluate t :=
  Term.evaluateWith_congr fun x hx => h.numberOf_eq (ht x hx)
    (Nat.lt_succ_of_le (c.rank_le_count x)) (Nat.lt_succ_of_le (c'.rank_le_count x))

end Alike

end Bindings

end Clausal
