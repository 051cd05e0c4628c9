import Clausal.Proofs.Unify.Moves

/-!
# Invariants of unification

What one move preserves, and with it what a whole run preserves. Bindings stay acyclic and only
grow; solutions of a problem remain solutions; terms that are alike at the end were alike before;
and every term that turns up is a part of a term that was there at the start.
-/

namespace Clausal

namespace Bindings

/-- All values have the property. -/
def Values (P : Term → Prop) (b : Bindings) : Prop :=
  ∀ x t, b.get? x = some t → P t

theorem values_empty (P : Term → Prop) : (∅ : Bindings).Values P := by
  intro x t h
  simp at h

theorem Values.insert {P : Term → Prop} {b : Bindings} {t : Term} (h : b.Values P) (x : String)
    (ht : P t) : (b.insert x t).Values P := by
  intro y u hy
  rw [get?_insert] at hy
  split at hy
  · obtain rfl : t = u := by simpa using hy
    exact ht
  · exact h y u hy

/-- All bound variables, read as terms, have the property. -/
def Keys (P : Term → Prop) (b : Bindings) : Prop :=
  ∀ x t, b.get? x = some t → P (.var x)

theorem keys_empty (P : Term → Prop) : (∅ : Bindings).Keys P := by
  intro x t h
  simp at h

theorem Keys.insert {P : Term → Prop} {b : Bindings} {x : String} (h : b.Keys P) (t : Term)
    (hx : P (.var x)) : (b.insert x t).Keys P := by
  intro y u hy
  rw [get?_insert] at hy
  split at hy
  · next hxy => exact hxy ▸ hx
  · exact h y u hy

section Resolve

variable {P : Term → Prop} {b : Bindings} (h : b.Values P)

include h

theorem Values.chase {n : Nat} {x : String} {t : Term} (hx : P (.var x))
    (ht : b.chase n x = some t) : P t := by
  induction n generalizing x with
  | zero => simp [Bindings.chase] at ht
  | succ n ih =>
      rw [Bindings.chase] at ht
      split at ht
      · obtain rfl := Option.some.inj ht
        exact hx
      · next y hy => exact ih (h x _ hy) ht
      · next u _ hu =>
        obtain rfl := Option.some.inj ht
        exact h x u hu

theorem Values.firstRepeat {n : Nat} {seen : List String} {x : String} (hx : P (.var x)) :
    P (.var (b.firstRepeat n seen x)) := by
  induction n generalizing seen x with
  | zero => exact hx
  | succ n ih =>
      rw [Bindings.firstRepeat]
      split
      · exact hx
      · split
        · next y hy => exact ih (h x _ hy)
        · exact hx

theorem Values.resolve {t : Term} (ht : P t) : P (b.resolve t) := by
  cases t with
  | var x =>
      rw [Bindings.resolve, deref]
      split
      · next u hu => exact h.chase ht hu
      · exact h.firstRepeat ht
  | _ => exact ht

end Resolve

theorem Acyclic.insert_of_occurs? {b : Bindings} (hb : b.Acyclic) {x : String} {t : Term}
    (hx : b.get? x = none) (hocc : b.occurs? x t = some false) : (b.insert x t).Acyclic := by
  rw [hb.occurs?_eq, Option.some.injEq, decide_eq_false_iff_not] at hocc
  exact hb.insert hx hocc

end Bindings

namespace Unify

namespace Problem

/-- The substitution solves the bindings and makes the terms of each pair equal. -/
def SolvedBy (p : Problem) (θ : String → Term) : Prop :=
  p.bindings.SolvedBy θ ∧ ∀ s t, (s, t) ∈ p.pairs → s.apply θ = t.apply θ

/-- The substitution makes the terms of each pair alike. -/
def AlikeUnder (p : Problem) (θ : String → Term) : Prop :=
  ∀ s t, (s, t) ∈ p.pairs → Term.Alike (s.apply θ) (t.apply θ)

/-- The substitution makes the terms of each pair related. -/
def RelatedUnder (R : Term → Term → Prop) (p : Problem) (θ : String → Term) : Prop :=
  ∀ s t, (s, t) ∈ p.pairs → R (s.apply θ) (t.apply θ)

/-- All terms of the pairs and all values have the property. -/
def All (P : Term → Prop) (p : Problem) : Prop :=
  (∀ s t, (s, t) ∈ p.pairs → P s ∧ P t) ∧ p.bindings.Values P

end Problem

theorem zip_apply_eq {θ : String → Term} {ss ts : List Term}
    (h : ss.map (Term.apply θ) = ts.map (Term.apply θ)) {s t : Term} (hst : (s, t) ∈ ss.zip ts) :
    s.apply θ = t.apply θ := by
  rw [← List.forall₂_eq_eq_eq, List.forall₂_map_left_iff, List.forall₂_map_right_iff] at h
  exact (List.forall₂_iff_zip.mp h).2 hst

namespace Move

variable {check : Bool} {p q : Problem}

theorem extends_bindings (h : Move check p q) (hp : p.bindings.Acyclic) :
    q.bindings.Extends p.bindings := by
  cases h with
  | same | decompose | leaves => exact .refl _
  | bindLeft hs => exact Bindings.extends_insert (hp.get?_of_resolve_var hs) _
  | bindRight _ ht => exact Bindings.extends_insert (hp.get?_of_resolve_var ht) _

theorem acyclic (h : Move true p q) (hp : p.bindings.Acyclic) : q.bindings.Acyclic := by
  cases h with
  | same | decompose | leaves => exact hp
  | bindLeft hs _ hocc => exact hp.insert_of_occurs? (hp.get?_of_resolve_var hs) (hocc rfl)
  | bindRight _ ht hocc => exact hp.insert_of_occurs? (hp.get?_of_resolve_var ht) (hocc rfl)

theorem all {P : Term → Prop} (hP : Term.Hereditary P) (h : Move check p q) (hall : p.All P) :
    q.All P := by
  obtain ⟨hpairs, hvalues⟩ := hall
  cases h with
  | same | leaves => exact ⟨fun s t hst => hpairs s t (by simp [hst]), hvalues⟩
  | bindLeft =>
      have hfirst := hpairs _ _ List.mem_cons_self
      exact ⟨fun s t hst => hpairs s t (by simp [hst]),
        hvalues.insert _ (hvalues.resolve hfirst.2)⟩
  | bindRight =>
      have hfirst := hpairs _ _ List.mem_cons_self
      exact ⟨fun s t hst => hpairs s t (by simp [hst]),
        hvalues.insert _ (hvalues.resolve hfirst.1)⟩
  | decompose hs ht =>
      have hfirst := hpairs _ _ List.mem_cons_self
      have hss := hP _ _ (hs ▸ hvalues.resolve hfirst.1)
      have hts := hP _ _ (ht ▸ hvalues.resolve hfirst.2)
      refine ⟨fun s t hst => ?_, hvalues⟩
      rcases List.mem_append.mp hst with hzip | hrest
      · obtain ⟨h₁, h₂⟩ := List.of_mem_zip hzip
        exact ⟨hss s h₁, hts t h₂⟩
      · exact hpairs s t (by simp [hrest])

theorem keys {P : Term → Prop} (h : Move check p q) (hall : p.All P)
    (hkeys : p.bindings.Keys P) : q.bindings.Keys P := by
  obtain ⟨hpairs, hvalues⟩ := hall
  cases h with
  | same | decompose | leaves => exact hkeys
  | bindLeft hs =>
      have hfirst := hpairs _ _ List.mem_cons_self
      exact hkeys.insert _ (hs ▸ hvalues.resolve hfirst.1)
  | bindRight _ ht =>
      have hfirst := hpairs _ _ List.mem_cons_self
      exact hkeys.insert _ (ht ▸ hvalues.resolve hfirst.2)

/-- No solution is lost. -/
theorem solvedBy {θ : String → Term} (h : Move check p q) (hp : p.bindings.Acyclic)
    (hθ : p.SolvedBy θ) : q.SolvedBy θ := by
  obtain ⟨hb, hpairs⟩ := hθ
  cases h with
  | same | leaves => exact ⟨hb, fun s t hst => hpairs s t (by simp [hst])⟩
  | bindLeft hs =>
      refine ⟨Bindings.solvedBy_insert hb ?_, fun s t hst => hpairs s t (by simp [hst])⟩
      have hfirst := hp.resolve_apply_eq hb (hpairs _ _ List.mem_cons_self)
      rwa [hs] at hfirst
  | bindRight _ ht =>
      refine ⟨Bindings.solvedBy_insert hb ?_, fun s t hst => hpairs s t (by simp [hst])⟩
      have hfirst := hp.resolve_apply_eq hb (hpairs _ _ List.mem_cons_self)
      rw [ht] at hfirst
      exact hfirst.symm
  | decompose hs ht =>
      have hfirst := hp.resolve_apply_eq hb (hpairs _ _ List.mem_cons_self)
      rw [hs, ht, Term.apply_compound, Term.apply_compound, Term.compound.injEq] at hfirst
      refine ⟨hb, fun s t hst => ?_⟩
      rcases List.mem_append.mp hst with hzip | hrest
      · exact zip_apply_eq hfirst.2 hzip
      · exact hpairs s t (by simp [hrest])

/-- Read backwards, a move relates the terms of one more pair by a congruence that close leaves are
related by. The congruence need not be transitive, because each leaf is compared only once. -/
theorem relatedUnder {R : Term → Term → Prop} {θ : String → Term} (hrefl : ∀ u, R u u)
    (hcompound : ∀ f ss ts, List.Forall₂ R ss ts → R (.compound f ss) (.compound f ts))
    (h : Move check p q) (hp : p.bindings.Acyclic)
    (hleaves : ∀ s t, (s, t) ∈ p.pairs → (p.bindings.resolve s).isLeaf = true →
      (p.bindings.resolve s).close (p.bindings.resolve t) = true →
      R ((p.bindings.resolve s).apply θ) ((p.bindings.resolve t).apply θ))
    (hb : q.bindings.SolvedBy θ) (hq : q.RelatedUnder R θ) : p.RelatedUnder R θ := by
  have hpb : p.bindings.SolvedBy θ := hb.of_extends (h.extends_bindings hp)
  have hmore : ∀ {s t : Term} {ps : List (Term × Term)},
      R ((p.bindings.resolve s).apply θ) ((p.bindings.resolve t).apply θ) →
      (∀ s' t', (s', t') ∈ ps → R (s'.apply θ) (t'.apply θ)) →
      ∀ s' t', (s', t') ∈ (s, t) :: ps → R (s'.apply θ) (t'.apply θ) := by
    intro s t ps hst hps s' t' hmem
    rw [hp.apply_resolve hpb, hp.apply_resolve hpb] at hst
    rcases List.mem_cons.mp hmem with heq | hmem
    · obtain ⟨rfl, rfl⟩ := Prod.mk.inj heq
      exact hst
    · exact hps s' t' hmem
  cases h with
  | same hs ht =>
      refine hmore ?_ hq
      rw [hs, ht]
      exact hrefl _
  | bindLeft hs =>
      refine hmore ?_ hq
      rw [hs, Term.apply_var, hb _ _ (by rw [Bindings.get?_insert, if_pos rfl])]
      exact hrefl _
  | bindRight _ ht =>
      refine hmore ?_ hq
      rw [ht, Term.apply_var, hb _ _ (by rw [Bindings.get?_insert, if_pos rfl])]
      exact hrefl _
  | decompose hs ht hlen =>
      refine hmore ?_ fun s t hst => hq s t (List.mem_append_right _ hst)
      rw [hs, ht, Term.apply_compound, Term.apply_compound]
      refine hcompound _ _ _ ?_
      rw [List.forall₂_map_left_iff, List.forall₂_map_right_iff, List.forall₂_iff_zip]
      exact ⟨hlen, fun hst => hq _ _ (List.mem_append_left _ hst)⟩
  | leaves hs hclose => exact hmore (hleaves _ _ List.mem_cons_self hs hclose) hq

theorem alikeUnder {θ : String → Term} (h : Move check p q) (hp : p.bindings.Acyclic)
    (hb : q.bindings.SolvedBy θ) (hq : q.AlikeUnder θ) : p.AlikeUnder θ :=
  h.relatedUnder .refl (fun _ _ _ => .compound) hp
    (fun _ _ _ hs hclose => (Term.alike_of_close hs hclose).apply θ) hb hq

end Move

/-! ## Runs -/

namespace Moves

variable {check : Bool} {p q : Problem}

theorem acyclic (h : Moves true p q) (hp : p.bindings.Acyclic) : q.bindings.Acyclic := by
  induction h with
  | refl => exact hp
  | tail _ hmove ih => exact hmove.acyclic ih

theorem extends_bindings (h : Moves true p q) (hp : p.bindings.Acyclic) :
    q.bindings.Extends p.bindings := by
  induction h with
  | refl => exact .refl _
  | tail hmoves hmove ih => exact (hmove.extends_bindings (Moves.acyclic hmoves hp)).trans ih

theorem all {P : Term → Prop} (hP : Term.Hereditary P) (h : Moves check p q) (hall : p.All P) :
    q.All P := by
  induction h with
  | refl => exact hall
  | tail _ hmove ih => exact hmove.all hP ih

theorem keys {P : Term → Prop} (hP : Term.Hereditary P) (h : Moves check p q) (hall : p.All P)
    (hkeys : p.bindings.Keys P) : q.bindings.Keys P := by
  induction h with
  | refl => exact hkeys
  | tail hmoves hmove ih => exact hmove.keys (Moves.all hP hmoves hall) ih

theorem solvedBy {θ : String → Term} (h : Moves true p q) (hp : p.bindings.Acyclic)
    (hθ : p.SolvedBy θ) : q.SolvedBy θ := by
  induction h with
  | refl => exact hθ
  | tail hmoves hmove ih => exact hmove.solvedBy (Moves.acyclic hmoves hp) ih

theorem alikeUnder {θ : String → Term} (h : Moves true p q) (hp : p.bindings.Acyclic)
    (hb : q.bindings.SolvedBy θ) (hq : q.AlikeUnder θ) : p.AlikeUnder θ := by
  induction h with
  | refl => exact hq
  | tail hmoves hmove ih =>
      have hmid := Moves.acyclic hmoves hp
      exact ih (hb.of_extends (hmove.extends_bindings hmid)) (hmove.alikeUnder hmid hb hq)

end Moves

end Unify

end Clausal
