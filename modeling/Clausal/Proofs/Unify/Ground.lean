import Clausal.Proofs.Unify.MostGeneral

/-!
# Matching against ground terms

When the terms on the right are ground, only variables on the left are bound, and to ground terms.
So the occurs check never refuses: with and without it the run is the same, and ends. If all terms
have a text, so do all steps, and a unification without fault is left.
-/

namespace Clausal

namespace Bindings

theorem acyclic_of_ground {b : Bindings} (h : b.Values fun v => v.isGround = true) : b.Acyclic := by
  intro x hx
  obtain ⟨y, ⟨t, ht, hy⟩, _⟩ := Relation.TransGen.head'_iff.mp hx
  exact Term.isGround_iff.mp (h x t ht) y hy

theorem occurs?_of_isGround {b : Bindings} (hb : b.Acyclic) {t : Term} (ht : t.isGround = true)
    (x : String) : b.occurs? x t = some false := by
  rw [hb.occurs?_eq, Term.apply_of_isGround ht, Option.some.injEq, decide_eq_false_iff_not]
  exact Term.isGround_iff.mp ht x

end Bindings

theorem Term.ne_var_of_isGround {t : Term} (ht : t.isGround = true) (x : String) : t ≠ .var x := by
  rintro rfl
  simp [isGround] at ht

theorem Term.hereditary_isGround : Term.Hereditary fun t => t.isGround = true := by
  intro f args h a ha
  rw [isGround, isGroundAll_eq, List.all_eq_true] at h
  exact h a ha

namespace Unify

/-- A run is the same as with the occurs check, and leaves ground values. -/
def Matches (r checked : Run) : Prop :=
  r = checked ∧ ∀ c, r.1 = .unified c → c.Values fun v => v.isGround = true

/-- The occurs check does not matter for pairs with a ground term on the right. -/
def MatchesPair (pair checked : Term → Term → Bindings → List Step → Run) : Prop :=
  ∀ s t b log, t.isGround = true → (b.Values fun v => v.isGround = true) →
    Matches (pair s t b log) (checked s t b log)

theorem matches_bind (check : Bool) {t : Term} {b : Bindings} (ht : t.isGround = true)
    (hb : b.Values fun v => v.isGround = true) (x : String) (log : List Step) :
    Matches (bind check x t b log) (bind true x t b log) := by
  have hchecked : bind true x t b log = (.unified (b.insert x t), .bound x t :: log) := by
    simp [bind, Bindings.occurs?_of_isGround (Bindings.acyclic_of_ground hb) ht]
  have hunchecked : bind check x t b log = (.unified (b.insert x t), .bound x t :: log) := by
    cases check with
    | true => exact hchecked
    | false => simp [bind]
  refine ⟨hunchecked.trans hchecked.symm, fun c hc => ?_⟩
  rw [hunchecked] at hc
  obtain rfl : b.insert x t = c := by simpa using hc
  exact hb.insert x ht

theorem matches_pairs {pair checked : Term → Term → Bindings → List Step → Run}
    (hpair : MatchesPair pair checked) (k : Nat) {ss ts : List Term} {b : Bindings}
    (hts : ∀ t ∈ ts, t.isGround = true) (hb : b.Values fun v => v.isGround = true)
    (log : List Step) :
    Matches (pairs pair k ss ts b log) (pairs checked k ss ts b log) := by
  induction ss generalizing k ts b log with
  | nil => exact ⟨rfl, fun c hc => by cases hc; exact hb⟩
  | cons s ss ih =>
      cases ts with
      | nil => exact ⟨rfl, fun c hc => by cases hc; exact hb⟩
      | cons t ts =>
          obtain ⟨heq, hground⟩ := hpair s t b (.argument k s t :: log) (hts t (by simp)) hb
          rcases hrun : pair s t b (.argument k s t :: log) with ⟨o, log'⟩
          rw [hrun] at heq hground
          cases o with
          | unified c =>
              rw [pairs_of_unified hrun, pairs_of_unified heq.symm]
              exact ih (k + 1) (fun t' ht' => hts t' (by simp [ht'])) (hground c rfl) log'
          | clash | endless =>
              rw [pairs_of_stopped hrun (by simp), pairs_of_stopped heq.symm (by simp)]
              exact ⟨rfl, fun c hc => by cases hc⟩

theorem matches_arguments {pair checked : Term → Term → Bindings → List Step → Run}
    (hpair : MatchesPair pair checked) {ss ts : List Term} {b : Bindings}
    (hts : ∀ t ∈ ts, t.isGround = true) (hb : b.Values fun v => v.isGround = true)
    (log : List Step) :
    Matches (arguments pair ss ts b log) (arguments checked ss ts b log) := by
  rw [arguments, arguments]
  split
  · exact matches_pairs hpair 0 hts hb log
  · exact ⟨rfl, fun c hc => by cases hc⟩

theorem matches_resolved {check : Bool} {pair checked : Term → Term → Bindings → List Step → Run}
    (hpair : MatchesPair pair checked) (s : Term) {t : Term} {b : Bindings} (ht : t.isGround = true)
    (hb : b.Values fun v => v.isGround = true) (log : List Step) :
    Matches (resolved check pair s t b log) (resolved true checked s t b log) := by
  refine resolved_cases_both (motive := Matches) ?_ ?_ ?_ ?_ ?_ ?_
  · exact fun x _ htx => (Term.ne_var_of_isGround ht x htx).elim
  · exact fun x _ _ => matches_bind check ht hb x log
  · exact fun y _ hty => (Term.ne_var_of_isGround ht y hty).elim
  · intro f ss ts _ htf
    rw [htf] at ht
    exact matches_arguments hpair (Term.hereditary_isGround f ts ht) hb log
  · exact fun _ _ _ _ _ _ _ => ⟨rfl, fun c hc => by cases hc⟩
  · intro _ _ _
    split
    · exact ⟨rfl, fun c hc => by cases hc; exact hb⟩
    · exact ⟨rfl, fun c hc => by cases hc⟩

theorem matches_terms (check : Bool) (n : Nat) : MatchesPair (terms check n) (terms true n) := by
  induction n with
  | zero => exact fun _ _ _ _ _ _ => ⟨rfl, fun c hc => by cases hc⟩
  | succ n ih =>
      intro s t b log ht hb
      have hresolve : b.resolve t = t := Bindings.resolve_of_nonvar (Term.ne_var_of_isGround ht)
      rw [terms, terms, hresolve]
      exact matches_resolved ih _ ht hb _

end Unify

namespace Unifier

open Unify

variable {ss ts : List Term} {b : Bindings}

/-- Against ground terms every unifier does what one with the occurs check does. -/
theorem runArgs_of_isGround (u : Unifier) (hts : ∀ t ∈ ts, t.isGround = true)
    (hb : b.Values fun v => v.isGround = true) : u.runArgs ss ts b = runArgs {} ss ts b := by
  have hargs : ∀ n,
      arguments (terms u.occursCheck n) ss ts b [] = arguments (terms true n) ss ts b [] :=
    fun n => (matches_arguments (matches_terms u.occursCheck n) hts hb []).1
  rw [runArgs, runArgs]
  exact congrArg _ (funext hargs)

theorem written_runArgs {u : Unifier} (hu : u.occursCheck = true) (hb : b.Acyclic)
    (h : ∀ s ∈ ss, ∀ t ∈ ts, Writable s t b) : Written (u.runArgs ss ts b).2 := by
  have hnil : Written [] := fun step hstep => by simp at hstep
  rw [(runArgs_eq_arguments hu hb ss ts).1, arguments]
  split
  · exact written_pairs (explained_terms true _) (fun _ _ _ _ => written_terms _) 0 h hnil
  · exact written_cons rfl hnil

variable (u : Unifier) (hts : ∀ t ∈ ts, t.isGround = true ∧ t.hasText = true)
include hts

theorem written_of_isGround (hss : ∀ s ∈ ss, s.hasText = true) : Written (u.runArgs ss ts ∅).2 := by
  rw [runArgs_of_isGround u (fun t ht => (hts t ht).1) (Bindings.values_empty _)]
  refine written_runArgs rfl Bindings.acyclic_empty fun s hs t ht => ?_
  exact ⟨Bindings.acyclic_empty, hss s hs, (hts t ht).2, Bindings.values_empty _⟩

/-- Terms with a text are matched against ground ones without fault. -/
theorem exists_unifyArgs_of_isGround (hss : ∀ s ∈ ss, s.hasText = true) :
    ∃ o, u.unifyArgs ss ts ∅ = .ok o := by
  have hends : (u.runArgs ss ts ∅).1 ≠ .endless := by
    rw [runArgs_of_isGround u (fun t ht => (hts t ht).1) (Bindings.values_empty _)]
    exact (runArgs_eq_arguments rfl Bindings.acyclic_empty ss ts).2
  rw [unifyArgs, conclude, if_pos (List.all_eq_true.mpr (written_of_isGround u hts hss))]
  split
  · exact ⟨_, rfl⟩
  · exact ⟨_, rfl⟩
  · next h => exact (hends h).elim

/-- Ground terms with finite leaves match themselves. -/
theorem unifyArgs_self_of_isGround (hfin : ∀ t ∈ ts, t.isFinite = true) :
    ∃ c, u.unifyArgs ts ts ∅ = .ok (some c) := by
  obtain ⟨c, hc, _⟩ :=
    exists_runArgs_eq_unified (u := {}) (θ := .var) rfl Bindings.acyclic_empty hfin
    hfin (Bindings.values_empty _) (Bindings.solvedBy_empty _) rfl
  rw [← runArgs_of_isGround u (fun t ht => (hts t ht).1) (Bindings.values_empty _)] at hc
  exact ⟨c, conclude_of_unified (written_of_isGround u hts fun t ht => (hts t ht).2) hc⟩

end Unifier

end Clausal
