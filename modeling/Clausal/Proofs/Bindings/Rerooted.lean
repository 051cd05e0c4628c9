import Clausal.Proofs.Bindings.Chains
import Clausal.Proofs.Bindings.MapVars
import Clausal.Proofs.Unify.Invariants
import Mathlib.Algebra.Group.End

/-!
# Rerooted bindings

Two bindings may represent the same classes of variables by different members. A chain then ends in
one variable under the first bindings and in another one under the second, and a permutation of all
variables leads from the first to the second. A chain that ends in a term ends in the same term
under both, and the full values differ by the permutation. Joining two classes in opposite
directions exchanges the two variables by which they were represented.
-/

namespace Clausal

namespace Term

variable {f : String → String} {t : Term}

/-- Renames a term that is a variable; what stands inside a compound term stays. -/
def atRoot (f : String → String) : Term → Term
  | .var x => .var (f x)
  | t => t

theorem atRoot_of_nonvar (h : ∀ x, t ≠ .var x) : t.atRoot f = t := by
  cases t with
  | var x => exact (h x rfl).elim
  | _ => rfl

theorem hasText_atRoot (f : String → String) (t : Term) : (t.atRoot f).hasText = t.hasText := by
  cases t <;> rfl

theorem mapVars_apply (f : String → String) (θ : String → Term) (t : Term) :
    (t.apply θ).mapVars f = t.apply fun x => (θ x).mapVars f := by
  induction t with
  | var _ | atom _ | int _ | float _ | str _ => rfl
  | compound g args ih =>
      rw [apply_compound, apply_compound, mapVars, mapVarsAll_eq, List.map_map]
      exact congrArg _ (List.map_congr_left ih)

end Term

namespace Bindings

/-- Acyclic bindings under which each chain ends alike, up to a permutation of the variables. -/
structure Rerooted (ρ : Equiv.Perm String) (b b' : Bindings) : Prop where
  acyclic : b.Acyclic
  acyclic' : b'.Acyclic
  deref : ∀ x, b'.deref x = (b.deref x).atRoot ρ

theorem Acyclic.occurs?_var {b : Bindings} (hb : b.Acyclic) {x y : String} (hy : b.get? y = none)
    (hxy : x ≠ y) : b.occurs? x (.var y) = some false := by
  simp [hb.occurs?_eq, image_of_unbound hy, Term.vars, hxy]

namespace Rerooted

theorem refl {b : Bindings} (hb : b.Acyclic) : b.Rerooted 1 b := by
  refine ⟨hb, hb, fun x => ?_⟩
  cases b.deref x <;> rfl

variable {ρ : Equiv.Perm String} {b b' : Bindings} (h : b.Rerooted ρ b')

include h

theorem resolve_eq (t : Term) : b'.resolve t = (b.resolve t).atRoot ρ := by
  cases t with
  | var x => exact h.deref x
  | _ => rfl

theorem deref_eq_var_iff {x z : String} : b'.deref z = .var (ρ x) ↔ b.deref z = .var x := by
  rw [h.deref]
  cases b.deref z <;> simp [Term.atRoot]

theorem get?_eq_none {x : String} (hx : b.get? x = none) : b'.get? (ρ x) = none :=
  h.acyclic'.get?_of_deref_var (h.deref_eq_var_iff.mpr (deref_of_unbound hx))

theorem image_eq (x : String) : b'.image x = (b.image x).mapVars ρ := by
  induction hr : b.rank x using Nat.strong_induction_on generalizing x with
  | _ r ih =>
      subst hr
      rcases h.acyclic.deref_cases x with ⟨y, hy, _⟩ | ⟨hend, hrank⟩
      · rw [image_eq_of_deref_var hy, image_eq_of_deref_var (h.deref_eq_var_iff.mpr hy)]
        rfl
      · have hsame : b'.deref x = b.deref x := by rw [h.deref, Term.atRoot_of_nonvar hend]
        rw [h.acyclic.image_eq_of_deref_nonvar hend,
          h.acyclic'.image_eq_of_deref_nonvar (hsame ▸ hend), hsame, Term.mapVars_apply]
        exact Term.apply_congr fun y hy => ih _ (hrank y hy) y rfl

theorem occurs?_eq (x : String) (t : Term) : b'.occurs? (ρ x) t = b.occurs? x t := by
  have himage : t.apply b'.image = (t.apply b.image).mapVars ρ := by
    rw [Term.mapVars_apply]
    exact Term.apply_congr fun y _ => h.image_eq y
  rw [h.acyclic.occurs?_eq, h.acyclic'.occurs?_eq, himage]
  simp [Term.mem_vars_mapVars]

theorem insert {x : String} {t : Term} (hx : b.get? x = none) (ht : ∀ y, t ≠ .var y)
    (hocc : b.occurs? x t = some false) : (b.insert x t).Rerooted ρ (b'.insert (ρ x) t) := by
  have hx' := h.get?_eq_none hx
  refine ⟨h.acyclic.insert_of_occurs? hx hocc,
    h.acyclic'.insert_of_occurs? hx' (by rw [h.occurs?_eq, hocc]), fun z => ?_⟩
  have hz := h.acyclic.chainsEnd.deref_insert hx (fun y hy => (ht y hy).elim) (ht x) z
  have hz' := h.acyclic'.chainsEnd.deref_insert hx' (fun y hy => (ht y hy).elim) (ht (ρ x)) z
  rw [ne_eq, h.deref_eq_var_iff] at hz'
  rcases hz with ⟨hroot, heq⟩ | ⟨hroot, heq⟩
  · rw [heq, (hz'.resolve_right (fun hne => hne.1 hroot)).2, Term.atRoot_of_nonvar ht]
  · rw [heq, (hz'.resolve_left (fun heq' => hroot heq'.1)).2, h.deref]

/-- Two unbound variables, bound to each other in opposite directions. -/
theorem insert_var {x y : String} (hx : b.get? x = none) (hy : b.get? y = none) (hxy : x ≠ y) :
    (b.insert x (.var y)).Rerooted (ρ * Equiv.swap x y) (b'.insert (ρ y) (.var (ρ x))) := by
  have hx' := h.get?_eq_none hx
  have hy' := h.get?_eq_none hy
  have hxy' : ρ x ≠ ρ y := ρ.injective.ne hxy
  refine ⟨h.acyclic.insert_of_occurs? hx (h.acyclic.occurs?_var hy hxy),
    h.acyclic'.insert_of_occurs? hy' (h.acyclic'.occurs?_var hx' hxy'.symm), fun z => ?_⟩
  have hz := h.acyclic.chainsEnd.deref_insert hx (t := .var y) (by rintro _ ⟨⟩; exact hy)
    (by simpa using hxy.symm) z
  have hz' := h.acyclic'.chainsEnd.deref_insert hy' (t := .var (ρ x)) (by rintro _ ⟨⟩; exact hx')
    (by simpa using hxy) z
  rw [ne_eq, h.deref_eq_var_iff, h.deref] at hz'
  -- chains that ended in `x` or `y` now end in `y` on the one side and in `ρ x` on the other
  rcases hz with ⟨hroot, heq⟩ | ⟨hroot, heq⟩
  · obtain ⟨_, heq'⟩ := hz'.resolve_left fun hl => hxy (by simpa [hroot] using hl.1)
    simp [heq, heq', hroot, Term.atRoot]
  · rcases hz' with ⟨hroot', heq'⟩ | ⟨hroot', heq'⟩
    · simp [heq, heq', hroot', Term.atRoot]
    · rw [heq, heq']
      cases hd : b.deref z with
      | var w =>
          have hwx : w ≠ x := by simpa [hd] using hroot
          have hwy : w ≠ y := by simpa [hd] using hroot'
          simp [Term.atRoot, Equiv.swap_apply_of_ne_of_ne hwx hwy]
      | _ => rfl

end Rerooted

end Bindings

end Clausal
