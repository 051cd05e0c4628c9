import Clausal.Proofs.Bindings.Acyclic

/-!
# Extending bindings

A search only ever adds entries for unbound variables. Later bindings extend earlier ones, and the
images of the later ones are instances of the images of the earlier ones. Read as equations,
bindings are solved by a substitution if every bound variable and its value have the same instance;
acyclic bindings are solved by their own images, and each solution is an instance of them.
-/

namespace Clausal.Bindings

/-- Every variable keeps its value. -/
def Extends (c b : Bindings) : Prop :=
  ∀ x t, b.get? x = some t → c.get? x = some t

/-- The substitution makes every bound variable equal to its value. -/
def SolvedBy (b : Bindings) (θ : String → Term) : Prop :=
  ∀ x t, b.get? x = some t → θ x = t.apply θ

theorem Extends.refl (b : Bindings) : b.Extends b := fun _ _ h => h

theorem Extends.trans {b c d : Bindings} (hcd : d.Extends c) (hbc : c.Extends b) : d.Extends b :=
  fun x t h => hcd x t (hbc x t h)

/-- Bindings can be restricted to some of their variables. -/
theorem exists_restriction (R : String → Prop) [DecidablePred R] (b : Bindings) :
    ∃ c : Bindings, ∀ x, c.get? x = if R x then b.get? x else none := by
  obtain ⟨es, hes⟩ : ∃ es, b.entries = es := ⟨_, rfl⟩
  induction es generalizing b with
  | nil =>
      obtain rfl : b = ∅ := Bindings.ext hes
      exact ⟨∅, by simp⟩
  | cons e es ih =>
      let b₀ : Bindings := ⟨es, indexOf es, es.length, weightOf es, rfl, rfl, rfl⟩
      obtain rfl : b = b₀.insert e.1 e.2 := Bindings.ext hes
      obtain ⟨c, hc⟩ := ih b₀ rfl
      by_cases he : R e.1
      · refine ⟨c.insert e.1 e.2, fun x => ?_⟩
        rw [get?_insert, get?_insert, hc]
        split
        · next hx => rw [if_pos (hx ▸ he)]
        · rfl
      · refine ⟨c, fun x => ?_⟩
        rw [get?_insert, hc]
        split
        · next hx => rw [if_neg (by rintro rfl; exact he hx)]
        · rfl

theorem extends_insert {b : Bindings} {x : String} (hx : b.get? x = none) (t : Term) :
    (b.insert x t).Extends b := by
  intro y u hy
  have hne : x ≠ y := by
    rintro rfl
    simp [hx] at hy
  rw [get?_insert, if_neg hne, hy]

theorem SolvedBy.of_extends {b c : Bindings} {θ : String → Term} (h : c.SolvedBy θ)
    (hbc : c.Extends b) : b.SolvedBy θ :=
  fun x t ht => h x t (hbc x t ht)

theorem solvedBy_empty (θ : String → Term) : (∅ : Bindings).SolvedBy θ := by
  intro x t h
  simp at h

theorem solvedBy_insert {b : Bindings} {x : String} {t : Term} {θ : String → Term}
    (h : b.SolvedBy θ) (ht : θ x = t.apply θ) : (b.insert x t).SolvedBy θ := by
  intro y u hy
  rw [get?_insert] at hy
  split at hy
  · next hxy =>
    subst hxy
    obtain rfl : t = u := by simpa using hy
    exact ht
  · exact h y u hy

theorem acyclic_empty : (∅ : Bindings).Acyclic := by
  intro x hcycle
  obtain ⟨y, ⟨t, ht, _⟩, _⟩ := Relation.TransGen.head'_iff.mp hcycle
  simp at ht

namespace Acyclic

variable {b : Bindings} (hb : b.Acyclic)

include hb

theorem solvedBy_image : b.SolvedBy b.image := fun _ _ h => hb.image_of_bound h

/-- Under a solution nothing changes when the images are put in first. -/
theorem apply_image {θ : String → Term} (hθ : b.SolvedBy θ) (t : Term) :
    (t.apply b.image).apply θ = t.apply θ := by
  have hvar : ∀ x, (b.image x).apply θ = θ x := by
    intro x
    induction x using hb.induction with
    | unbound x hx => rw [image_of_unbound hx, Term.apply_var]
    | bound x t ht ih =>
        calc (b.image x).apply θ = t.apply fun y => (b.image y).apply θ := by
              rw [hb.image_of_bound ht, Term.apply_apply]
          _ = t.apply θ := Term.apply_congr ih
          _ = θ x := (hθ x t ht).symm
  rw [Term.apply_apply]
  exact Term.apply_congr fun x _ => hvar x

theorem apply_resolve {θ : String → Term} (hθ : b.SolvedBy θ) (t : Term) :
    (b.resolve t).apply θ = t.apply θ := by
  rcases t.var_or_nonvar with ⟨x, rfl⟩ | hne
  · induction x using hb.induction with
    | unbound x hx => rw [resolve, deref_of_unbound hx]
    | bound x t ht ih =>
        rw [resolve, hb.deref_of_bound ht, Term.apply_var, hθ x t ht]
        rcases t.var_or_nonvar with ⟨y, rfl⟩ | hne
        · exact ih y (by simp [Term.vars])
        · rw [resolve_of_nonvar hne]
  · rw [resolve_of_nonvar hne]

theorem resolve_apply_eq {θ : String → Term} (hθ : b.SolvedBy θ) {s t : Term}
    (h : s.apply θ = t.apply θ) : (b.resolve s).apply θ = (b.resolve t).apply θ := by
  rw [hb.apply_resolve hθ, hb.apply_resolve hθ, h]

/-- A binding that passes the occurs check closes no circle. A path in the new bindings that uses
the new entry would lead from a variable of the new value back to the new variable. -/
theorem insert {x : String} {t : Term} (hx : b.get? x = none)
    (hocc : x ∉ (t.apply b.image).vars) : (b.insert x t).Acyclic := by
  have havoid : ∀ y ∈ t.vars, ¬ Relation.ReflTransGen b.Leads y x := by
    intro y hy hreach
    exact hocc (Term.mem_vars_apply.mpr ⟨y, hy, hb.mem_vars_image.mpr ⟨hx, hreach⟩⟩)
  have hpath : ∀ {u v : String}, Relation.TransGen (b.insert x t).Leads u v →
      Relation.TransGen b.Leads u v ∨
        Relation.ReflTransGen b.Leads u x ∧ ∃ y ∈ t.vars, Relation.ReflTransGen b.Leads y v := by
    intro u v huv
    have hedge : ∀ {v w : String}, (b.insert x t).Leads v w →
        v = x ∧ w ∈ t.vars ∨ b.Leads v w := by
      rintro v w ⟨s, hs, hw⟩
      rw [get?_insert] at hs
      split at hs
      · next hxv =>
        obtain rfl : t = s := by simpa using hs
        exact .inl ⟨hxv.symm, hw⟩
      · exact .inr ⟨s, hs, hw⟩
    induction huv with
    | single h =>
        rcases hedge h with ⟨rfl, hw⟩ | hold
        · exact .inr ⟨.refl, _, hw, .refl⟩
        · exact .inl (.single hold)
    | tail _ h ih =>
        rcases hedge h with ⟨rfl, hw⟩ | hold
        · rcases ih with hux | ⟨_, y, hy, hyx⟩
          · exact .inr ⟨hux.to_reflTransGen, _, hw, .refl⟩
          · exact (havoid y hy hyx).elim
        · rcases ih with huv | ⟨hux, y, hy, hyv⟩
          · exact .inl (huv.tail hold)
          · exact .inr ⟨hux, y, hy, hyv.tail hold⟩
  intro z hz
  rcases hpath hz with hold | ⟨hzx, y, hy, hyz⟩
  · exact hb z hold
  · exact havoid y hy (hyz.trans hzx)

end Acyclic

end Clausal.Bindings
