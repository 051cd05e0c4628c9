import Clausal.Proofs.Arithmetic
import Clausal.Proofs.Unify.MostGeneral

/-!
# Unification of exact terms

Between terms without floating-point leaves closeness is equality. Then unification is a solver of
equations: the solutions of the bindings that it returns are the solutions of the given bindings
that make the two sides equal, and it returns no bindings only if there are none.
-/

namespace Clausal

namespace Term

mutual

/-- Whether a term has neither floating-point leaves nor quotients. -/
def isExact : Term → Bool
  | .float _ => false
  | .compound f args => f != "/" && isExactAll args
  | _ => true

def isExactAll : List Term → Bool
  | [] => true
  | t :: ts => isExact t && isExactAll ts

end

abbrev IsExact (t : Term) : Prop := t.isExact = true

theorem isExactAll_eq (ts : List Term) : isExactAll ts = ts.all isExact := by
  induction ts with
  | nil => rfl
  | cons t ts ih => simp [isExactAll, ih]

theorem isExact_compound {f : String} {args : List Term} :
    (compound f args).isExact = true ↔ f ≠ "/" ∧ ∀ a ∈ args, a.isExact = true := by
  simp [isExact, isExactAll_eq]

theorem hereditary_isExact : Hereditary IsExact := by
  intro f args h a ha
  exact (isExact_compound.mp h).2 a ha

theorem isExact_mapVars (r : String → String) {t : Term} (h : t.isExact = true) :
    (t.mapVars r).isExact = true := by
  induction t with
  | var _ | atom _ | int _ | str _ => rfl
  | float _ => simp [isExact] at h
  | compound f args ih =>
      obtain ⟨hf, hargs⟩ := isExact_compound.mp h
      rw [mapVars, mapVarsAll_eq, isExact_compound]
      refine ⟨hf, fun a ha => ?_⟩
      obtain ⟨b, hb, rfl⟩ := List.mem_map.mp ha
      exact ih b hb (hargs b hb)

theorem isFinite_of_isExact {t : Term} (h : t.isExact = true) : t.isFinite = true := by
  induction t with
  | var _ | atom _ | int _ | str _ => rfl
  | float _ => simp [isExact] at h
  | compound f args ih =>
      rw [isFinite, isFiniteAll_eq, List.all_eq_true]
      exact fun a ha => ih a ha ((isExact_compound.mp h).2 a ha)

theorem eq_of_close {s t : Term} (hs : s.isLeaf = true) (hexact : s.isExact = true)
    (h : s.close t = true) : s = t := by
  cases s <;> cases t <;> simp_all [isLeaf, isExact, close]

/-- An exact expression has an integer value, if its variables have. -/
theorem exists_int_of_evaluateWith {look : String → Except Fault Number} {t : Term} {n : Number}
    (ht : t.isExact = true) (hlook : ∀ x m, look x = .ok m → ∃ k, m = .int k)
    (h : t.evaluateWith look = .ok n) : ∃ k, n = .int k := by
  induction t generalizing n with
  | var x => exact hlook x n h
  | atom _ | str _ => simp [evaluateWith, notArithmetic] at h
  | int k => exact ⟨k, by simpa [evaluateWith] using h.symm⟩
  | float _ => simp [isExact] at ht
  | compound f args ih =>
      obtain ⟨hf, hargs⟩ := isExact_compound.mp ht
      obtain ⟨l, r, rfl⟩ := evaluateWith_compound h
      obtain ⟨op, a, b, hop, ha, hb, hcompute⟩ := evaluateWith_operation.mp h
      obtain ⟨i, rfl⟩ := ih l (by simp) (hargs l (by simp)) ha
      obtain ⟨j, rfl⟩ := ih r (by simp) (hargs r (by simp)) hb
      cases op with
      | add | sub | mul =>
          exact ⟨_,
            by simpa [Operation.compute, Operation.result?, Operation.onInts] using hcompute.symm⟩
      | div =>
          rw [Operation.ofSymbol?.eq_def] at hop
          split at hop <;> simp_all

end Term

theorem Bindings.Values.exists_int_of_evaluate {b : Bindings} (hvalues : b.Values Term.IsExact)
    {t : Term} {n : Number} (ht : t.isExact = true) (h : b.evaluate t = .ok n) :
    ∃ k, n = .int k := by
  have hnumber : ∀ k x m, b.numberOf k x = .ok m → ∃ i, m = .int i := by
    intro k
    induction k with
    | zero => simp [Bindings.numberOf]
    | succ k ih =>
        intro x m hm
        have hexact : (b.resolve (.var x)).isExact = true := hvalues.resolve rfl
        change (b.deref x).isExact = true at hexact
        rw [Bindings.numberOf] at hm
        split at hm
        · simp [notArithmetic] at hm
        · exact Term.exists_int_of_evaluateWith hexact ih hm
  exact Term.exists_int_of_evaluateWith ht (hnumber _) h

namespace Unify

variable {p q : Problem} {θ : String → Term}

/-- No solution is gained. -/
theorem Move.solvedBy_of_isExact (h : Move true p q) (hp : p.bindings.Acyclic)
    (hexact : p.All Term.IsExact) (hq : q.SolvedBy θ) : p.SolvedBy θ := by
  refine ⟨hq.1.of_extends (h.extends_bindings hp), ?_⟩
  refine h.relatedUnder (fun _ => rfl) ?_ hp ?_ hq.1 hq.2
  · intro f ss ts hargs
    rw [List.forall₂_eq_eq_eq] at hargs
    rw [hargs]
  · intro s t hmem hleaf hclose
    have hresolved := hexact.2.resolve (hexact.1 s t hmem).1
    rw [Term.eq_of_close hleaf hresolved hclose]

theorem Moves.solvedBy_iff (h : Moves true p q) (hp : p.bindings.Acyclic)
    (hexact : p.All Term.IsExact) : q.SolvedBy θ ↔ p.SolvedBy θ := by
  refine ⟨fun hq => ?_, h.solvedBy hp⟩
  induction h with
  | refl => exact hq
  | tail hmoves hmove ih =>
      have hmid := Moves.acyclic hmoves hp
      exact ih (hmove.solvedBy_of_isExact hmid (Moves.all Term.hereditary_isExact hmoves hexact) hq)

theorem Moves.solvedBy_of_unified {ps : List (Term × Term)} {b c : Bindings}
    (h : Moves true ⟨ps, b⟩ ⟨[], c⟩) (hb : b.Acyclic) (hexact : Problem.All Term.IsExact ⟨ps, b⟩)
    (hc : c.SolvedBy θ) : Problem.SolvedBy ⟨ps, b⟩ θ :=
  (h.solvedBy_iff hb hexact).mp ⟨hc, fun _ _ hmem => by simp at hmem⟩

end Unify

namespace Unifier

open Unify

variable {u : Unifier} {b : Bindings} {o : Option Bindings}

/-- The solutions of what unification returns are the solutions of the equation. -/
theorem unify_solvedBy_iff (hu : u.occursCheck = true) (hb : b.Acyclic)
    (hvalues : b.Values Term.IsExact) {s t : Term} (hs : s.isExact = true)
    (ht : t.isExact = true) (h : u.unify s t b = .ok o) (θ : String → Term) :
    (∃ c, o = some c ∧ c.SolvedBy θ) ↔ b.SolvedBy θ ∧ s.apply θ = t.apply θ := by
  constructor
  · rintro ⟨c, rfl, hc⟩
    have hexact : Problem.All Term.IsExact ⟨[(s, t)], b⟩ := by
      refine ⟨fun s' t' hmem => ?_, hvalues⟩
      obtain ⟨rfl, rfl⟩ : s' = s ∧ t' = t := by simpa using hmem
      exact ⟨hs, ht⟩
    obtain ⟨hbθ, hst⟩ := (moves_of_unify hu hb h).solvedBy_of_unified hb hexact hc
    exact ⟨hbθ, hst s t (by simp)⟩
  · rintro ⟨hbθ, hst⟩
    obtain ⟨c, hrun, hc⟩ := exists_run_eq_unified hu hb (Term.isFinite_of_isExact hs)
      (Term.isFinite_of_isExact ht)
      (fun x v hv => Term.isFinite_of_isExact (hvalues x v hv)) hbθ hst
    exact ⟨c, (eq_of_conclude hrun h).symm, hc⟩

theorem unifyArgs_solvedBy_iff (hu : u.occursCheck = true) (hb : b.Acyclic)
    (hvalues : b.Values Term.IsExact) {ss ts : List Term}
    (hss : ∀ s ∈ ss, s.isExact = true) (hts : ∀ t ∈ ts, t.isExact = true)
    (h : u.unifyArgs ss ts b = .ok o) (θ : String → Term) :
    (∃ c, o = some c ∧ c.SolvedBy θ) ↔
      b.SolvedBy θ ∧ ss.map (Term.apply θ) = ts.map (Term.apply θ) := by
  constructor
  · rintro ⟨c, rfl, hc⟩
    have hexact : Problem.All Term.IsExact ⟨ss.zip ts, b⟩ := by
      refine ⟨fun s t hmem => ?_, hvalues⟩
      obtain ⟨hs, ht⟩ := List.of_mem_zip hmem
      exact ⟨hss s hs, hts t ht⟩
    obtain ⟨hbθ, hst⟩ := (moves_of_unifyArgs hu hb h).solvedBy_of_unified hb hexact hc
    refine ⟨hbθ, ?_⟩
    rw [← List.forall₂_eq_eq_eq, List.forall₂_map_left_iff, List.forall₂_map_right_iff,
      List.forall₂_iff_zip]
    exact ⟨length_eq_of_unifyArgs hu hb h, fun hmem => hst _ _ hmem⟩
  · rintro ⟨hbθ, hst⟩
    obtain ⟨c, hrun, hc⟩ := exists_runArgs_eq_unified hu hb
      (fun s hs => Term.isFinite_of_isExact (hss s hs))
      (fun t ht => Term.isFinite_of_isExact (hts t ht))
      (fun x v hv => Term.isFinite_of_isExact (hvalues x v hv)) hbθ hst
    exact ⟨c, (eq_of_conclude hrun h).symm, hc⟩

end Unifier

end Clausal
