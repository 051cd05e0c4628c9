import Clausal.Proofs.Bindings.Extension

/-!
# What is left of bindings

The images of some bindings can be put into the terms once, at the start, instead of being looked up
again and again. Bindings that grow from the given ones then leave a residue: the same entries,
without the given ones, and with the images put into their values. A term under the grown bindings
and its instance under the residue resolve alike, have the same instance in the end, and pass the
same occurs checks.
-/

namespace Clausal.Bindings

/-- The bindings `d` are what is left of `c` when the images of `b` are put in first. -/
structure Residue (b c d : Bindings) : Prop where
  extends_start : c.Extends b
  acyclic : c.Acyclic
  acyclic_residue : d.Acyclic
  bound : ∀ x t, b.get? x = some t → d.get? x = none
  unbound : ∀ x, b.get? x = none → d.get? x = (c.get? x).map (Term.apply b.image)

theorem residue_start {b : Bindings} (hb : b.Acyclic) : b.Residue b ∅ where
  extends_start := .refl b
  acyclic := hb
  acyclic_residue := acyclic_empty
  bound x t _ := get?_empty x
  unbound x hx := by rw [hx, get?_empty]; rfl

namespace Residue

variable {b c d : Bindings} (h : b.Residue c d)

include h

theorem get?_of_unbound {x : String} (hx : c.get? x = none) : b.get? x = none := by
  cases hb : b.get? x with
  | none => rfl
  | some t => simp [h.extends_start x t hb] at hx

theorem image_of_resolve_var {t : Term} {x : String} (hx : c.resolve t = .var x) :
    b.image x = .var x :=
  image_of_unbound (h.get?_of_unbound (h.acyclic.get?_of_resolve_var hx))

theorem acyclic_start : b.Acyclic := by
  have hleads : ∀ x y, b.Leads x y → c.Leads x y := by
    rintro x y ⟨t, ht, hy⟩
    exact ⟨t, h.extends_start x t ht, hy⟩
  exact fun x hcycle => h.acyclic x (Relation.TransGen.mono hleads x x hcycle)

theorem resolve_image (x : String) : d.resolve (b.image x) = (c.deref x).apply b.image := by
  induction x using h.acyclic.induction with
  | unbound x hx =>
      have hb := h.get?_of_unbound hx
      have hd : d.get? x = none := by rw [h.unbound x hb, hx]; rfl
      rw [deref_of_unbound hx, Term.apply_var, image_of_unbound hb, resolve, deref_of_unbound hd]
  | bound x u hu ih =>
      -- Whether the entry is a given one or a later one, `x` goes on to the instance of its value.
      have hstep : d.resolve (b.image x) = d.resolve (u.apply b.image) := by
        cases hb : b.get? x with
        | some t =>
            obtain rfl : t = u := by simpa [h.extends_start x t hb] using hu
            rw [h.acyclic_start.image_of_bound hb]
        | none =>
            have hd : d.get? x = some (u.apply b.image) := by rw [h.unbound x hb, hu]; rfl
            rw [image_of_unbound hb, resolve, h.acyclic_residue.deref_of_bound hd]
      rw [hstep, h.acyclic.deref_of_bound hu]
      rcases u.var_or_nonvar with ⟨y, rfl⟩ | hne
      · exact ih y (by simp [Term.vars])
      · rw [resolve_of_nonvar hne, resolve_of_nonvar (Term.apply_ne_var hne b.image)]

/-- An instance resolves to the instance of what the term resolves to. -/
theorem resolve_apply (t : Term) : d.resolve (t.apply b.image) = (c.resolve t).apply b.image := by
  rcases t.var_or_nonvar with ⟨x, rfl⟩ | hne
  · exact h.resolve_image x
  · rw [resolve_of_nonvar hne, resolve_of_nonvar (Term.apply_ne_var hne b.image)]

/-- The instance under the grown bindings is reached in two steps. -/
theorem apply_image_apply (t : Term) : (t.apply b.image).apply d.image = t.apply c.image := by
  have hvar : ∀ x, (b.image x).apply d.image = c.image x := by
    intro x
    induction x using h.acyclic.induction with
    | unbound x hx =>
        have hb := h.get?_of_unbound hx
        have hd : d.get? x = none := by rw [h.unbound x hb, hx]; rfl
        rw [image_of_unbound hb, Term.apply_var, image_of_unbound hd, image_of_unbound hx]
    | bound x u hu ih =>
        have hvalue : (u.apply b.image).apply d.image = c.image x := by
          rw [h.acyclic.image_of_bound hu, Term.apply_apply]
          exact Term.apply_congr ih
        cases hb : b.get? x with
        | some t =>
            obtain rfl : t = u := by simpa [h.extends_start x t hb] using hu
            rw [h.acyclic_start.image_of_bound hb, hvalue]
        | none =>
            have hd : d.get? x = some (u.apply b.image) := by rw [h.unbound x hb, hu]; rfl
            rw [image_of_unbound hb, Term.apply_var, h.acyclic_residue.image_of_bound hd, hvalue]
  rw [Term.apply_apply]
  exact Term.apply_congr fun x _ => hvar x

theorem occurs?_apply (x : String) (t : Term) : d.occurs? x (t.apply b.image) = c.occurs? x t := by
  rw [h.acyclic.occurs?_eq, h.acyclic_residue.occurs?_eq, h.apply_image_apply]

theorem insert {x : String} {t : Term} (hx : c.get? x = none) (hocc : c.occurs? x t = some false) :
    b.Residue (c.insert x t) (d.insert x (t.apply b.image)) := by
  have hb := h.get?_of_unbound hx
  have hd : d.get? x = none := by rw [h.unbound x hb, hx]; rfl
  have hfree : x ∉ (t.apply c.image).vars := by
    rw [h.acyclic.occurs?_eq] at hocc
    simpa using hocc
  refine ⟨(extends_insert hx t).trans h.extends_start, h.acyclic.insert hx hfree, ?_, ?_, ?_⟩
  · exact h.acyclic_residue.insert hd (by rwa [h.apply_image_apply])
  · intro y u hy
    have hne : x ≠ y := by
      rintro rfl
      simp [hb] at hy
    rw [get?_insert, if_neg hne, h.bound y u hy]
  · intro y hy
    rw [get?_insert, get?_insert]
    split
    · rfl
    · exact h.unbound y hy

end Residue

end Clausal.Bindings
