import Clausal.Proofs.Unify.Nesting

/-!
# Unification is sound

With the occurs check and under acyclic bindings, unification ends. Where it succeeds, the new
bindings extend the old ones, are acyclic again, and make both terms alike.
-/

namespace Clausal

namespace Unify

theorem outcome_of_conclude {r : Run} {c : Bindings} (h : conclude r = .ok (some c)) :
    r.1 = .unified c := by
  rw [conclude] at h
  split at h
  · cases ho : r.1 <;> simp_all
  · simp at h

theorem eq_of_conclude {r : Run} {c : Bindings} {o : Option Bindings} (hr : r.1 = .unified c)
    (h : conclude r = .ok o) : some c = o := by
  rw [conclude, hr] at h
  split at h
  · simpa using h
  · simp at h

/-- What moves that solve all pairs guarantee, under the final bindings and all later ones. -/
theorem Moves.sound {ps : List (Term × Term)} {b c : Bindings} (h : Moves true ⟨ps, b⟩ ⟨[], c⟩)
    (hb : b.Acyclic) :
    c.Extends b ∧ c.Acyclic ∧ ∀ d : Bindings, d.Acyclic → d.Extends c →
      ∀ s t, (s, t) ∈ ps → Term.Alike (s.apply d.image) (t.apply d.image) := by
  refine ⟨h.extends_bindings hb, h.acyclic hb, fun d hd hdc => ?_⟩
  exact h.alikeUnder hb (hd.solvedBy_image.of_extends hdc) fun s t hst => by simp at hst

end Unify

namespace Unifier

open Unify

variable {u : Unifier} {b c : Bindings}

theorem explained_run (hu : u.occursCheck = true) (hb : b.Acyclic) (s t : Term) :
    Explained true [(s, t)] b (u.run s t b).1 := by
  rw [(run_eq_terms hu hb s t).1]
  exact explained_terms true _ s t b []

theorem explained_runArgs (hu : u.occursCheck = true) (hb : b.Acyclic) {ss ts : List Term}
    (hlen : ss.length = ts.length) : Explained true (ss.zip ts) b (u.runArgs ss ts b).1 := by
  rw [(runArgs_eq_arguments hu hb ss ts).1]
  exact explained_arguments hlen

theorem moves_of_unify (hu : u.occursCheck = true) (hb : b.Acyclic) {s t : Term}
    (h : u.unify s t b = .ok (some c)) : Moves true ⟨[(s, t)], b⟩ ⟨[], c⟩ := by
  have hexp := explained_run hu hb s t
  rw [outcome_of_conclude h] at hexp
  simpa using hexp []

theorem length_eq_of_unifyArgs (hu : u.occursCheck = true) (hb : b.Acyclic) {ss ts : List Term}
    (h : u.unifyArgs ss ts b = .ok (some c)) : ss.length = ts.length := by
  by_contra hlen
  have hrun := outcome_of_conclude h
  rw [(runArgs_eq_arguments hu hb ss ts).1, arguments, if_neg hlen] at hrun
  simp at hrun

theorem moves_of_unifyArgs (hu : u.occursCheck = true) (hb : b.Acyclic) {ss ts : List Term}
    (h : u.unifyArgs ss ts b = .ok (some c)) : Moves true ⟨ss.zip ts, b⟩ ⟨[], c⟩ := by
  have hexp := explained_runArgs hu hb (length_eq_of_unifyArgs hu hb h)
  rw [outcome_of_conclude h] at hexp
  simpa using hexp []

theorem forall₂_alike_of_unifyArgs (hu : u.occursCheck = true) (hb : b.Acyclic)
    {ss ts : List Term} (h : u.unifyArgs ss ts b = .ok (some c)) {d : Bindings} (hd : d.Acyclic)
    (hdc : d.Extends c) :
    List.Forall₂ Term.Alike (ss.map (Term.apply d.image)) (ts.map (Term.apply d.image)) := by
  rw [List.forall₂_map_left_iff, List.forall₂_map_right_iff, List.forall₂_iff_zip]
  have hsound := (moves_of_unifyArgs hu hb h).sound hb
  exact ⟨length_eq_of_unifyArgs hu hb h, fun hst => hsound.2.2 d hd hdc _ _ hst⟩

/-- Unification with the occurs check, of two terms and of two lists of arguments: it ends, and on
success the bindings are extended, stay acyclic and make the two sides alike. -/
theorem extends_acyclic_alike (hu : u.occursCheck = true) (hb : b.Acyclic) :
    (∀ s t : Term, (u.run s t b).1 ≠ .endless ∧
      ∀ c, u.unify s t b = .ok (some c) → c.Extends b ∧ c.Acyclic ∧
        ∃ s' t', c.substitute? s = some s' ∧ c.substitute? t = some t' ∧ Term.Alike s' t') ∧
    ∀ ss ts : List Term, ss.length = ts.length → (u.runArgs ss ts b).1 ≠ .endless ∧
      ∀ c, u.unifyArgs ss ts b = .ok (some c) → c.Extends b ∧ c.Acyclic ∧
        ∃ ss' ts', c.substituteAll? ss = some ss' ∧ c.substituteAll? ts = some ts' ∧
          List.Forall₂ Term.Alike ss' ts' := by
  constructor
  · intro s t
    refine ⟨(run_eq_terms hu hb s t).2, fun c hc => ?_⟩
    obtain ⟨hext, hacyclic, halike⟩ := (moves_of_unify hu hb hc).sound hb
    exact ⟨hext, hacyclic, _, _, hacyclic.substitute?_eq s, hacyclic.substitute?_eq t,
      halike c hacyclic (.refl c) s t (by simp)⟩
  · intro ss ts _
    refine ⟨(runArgs_eq_arguments hu hb ss ts).2, fun c hc => ?_⟩
    obtain ⟨hext, hacyclic, _⟩ := (moves_of_unifyArgs hu hb hc).sound hb
    exact ⟨hext, hacyclic, _, _, hacyclic.substituteAll?_eq ss, hacyclic.substituteAll?_eq ts,
      forall₂_alike_of_unifyArgs hu hb hc hacyclic (.refl c)⟩

/-- Through bindings that hold a variable inside a compound term, with two floating-point leaves
that are close and not equal: once as two terms, once as two lists of arguments. -/
theorem extends_acyclic_alike_through_compound :
    let b := (∅ : Bindings).insert "X" (.compound "g" [.var "Y"])
    let c := b.insert "Y" (.float 1e-17)
    let ss := [.var "X", .var "Y"]
    let ts := [.compound "g" [.float 1e-17], .float 2e-17]
    (({} : Unifier).unify (.compound "f" ss) (.compound "f" ts) b = .ok (some c) ∧
      c.Acyclic ∧ ∃ s' t', c.substitute? (.compound "f" ss) = some s' ∧
        c.substitute? (.compound "f" ts) = some t' ∧ Term.Alike s' t') ∧
    ({} : Unifier).unifyArgs ss ts b = .ok (some c) ∧
      ∃ ss' ts', c.substituteAll? ss = some ss' ∧ c.substituteAll? ts = some ts' ∧
        List.Forall₂ Term.Alike ss' ts' := by
  intro b c ss ts
  have hb : b.Acyclic := Bindings.acyclic_empty.insert_of_occurs? (Bindings.get?_empty "X") rfl
  have hunify : ({} : Unifier).unify (.compound "f" ss) (.compound "f" ts) b = .ok (some c) := rfl
  have hargs : ({} : Unifier).unifyArgs ss ts b = .ok (some c) := rfl
  have hsound := extends_acyclic_alike (u := {}) rfl hb
  obtain ⟨_, hterms⟩ := (hsound.1 _ _).2 c hunify
  obtain ⟨_, _, hlists⟩ := (hsound.2 ss ts rfl).2 c hargs
  exact ⟨⟨hunify, hterms⟩, hargs, hlists⟩

end Unifier

end Clausal
