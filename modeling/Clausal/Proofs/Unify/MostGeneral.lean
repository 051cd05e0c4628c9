import Clausal.Proofs.Unify.Soundness

/-!
# Unification is complete and most general

A substitution that solves the bindings and makes both terms equal rules out every clash, the occurs
check included: a variable inside a compound term has a smaller instance than the term. Moves lose
no solution, so unification succeeds and the substitution solves the bindings that it returns.
Floating point leaves have to be finite, because others are not close to themselves.
-/

namespace Clausal

/-- A variable that a solution makes equal to a term does not occur in it, even through bindings. -/
theorem Bindings.Acyclic.occurs?_of_apply_eq {b : Bindings} (hb : b.Acyclic) {θ : String → Term}
    (hθ : b.SolvedBy θ) {x : String} {t : Term} (hfree : ∀ y, t = .var y → b.get? y = none)
    (hne : t ≠ .var x) (heq : θ x = t.apply θ) : b.occurs? x t = some false := by
  rw [hb.occurs?_eq, Option.some.injEq, decide_eq_false_iff_not]
  intro hx
  rcases t.var_or_nonvar with ⟨y, rfl⟩ | hnonvar
  · rw [Term.apply_var, Bindings.image_of_unbound (hfree y rfl)] at hx
    have hxy : x = y := by simpa [Term.vars] using hx
    exact hne (by rw [hxy])
  · rw [← hb.apply_image hθ] at heq
    rcases Term.eq_compound_or_isLeaf hnonvar with ⟨f, args, rfl⟩ | hleaf
    · rw [Term.apply_compound] at hx heq
      exact Term.apply_ne_of_mem_vars hx heq
    · rw [Term.apply_of_isLeaf hleaf, Term.vars_of_isLeaf hleaf] at hx
      simp at hx

namespace Unify

/-- Where there is a solution, no pair is refused. -/
theorem not_clash {b : Bindings} (hb : b.Acyclic) {θ : String → Term} (hθ : b.SolvedBy θ)
    {s t : Term} (hst : s.apply θ = t.apply θ) (hfin : b.Values fun u => u.isFinite = true)
    (hs : s.isFinite = true) : ¬ Clash true b s t := by
  have heq := hb.resolve_apply_eq hθ hst
  intro hclash
  cases hclash with
  | occursLeft _ hsx htx hocc =>
      rw [hsx, Term.apply_var] at heq
      rw [hb.occurs?_of_apply_eq hθ (fun y hy => hb.get?_of_resolve_var hy) htx heq] at hocc
      simp at hocc
  | occursRight _ hsx hty hocc =>
      rw [hty, Term.apply_var] at heq
      rw [hb.occurs?_of_apply_eq hθ (fun y hy => hb.get?_of_resolve_var hy) (hsx _) heq.symm]
        at hocc
      simp at hocc
  | functors hsf htg hne =>
      rw [hsf, htg, Term.apply_compound, Term.apply_compound, Term.compound.injEq] at heq
      exact hne heq.1
  | arities hsf htf hlen =>
      rw [hsf, htf, Term.apply_compound, Term.apply_compound, Term.compound.injEq] at heq
      exact hlen (by simpa using congrArg List.length heq.2)
  | leaves hsv htv hleaf hclose =>
      have hresolve : b.resolve s = b.resolve t := Term.eq_of_apply_eq_of_isLeaf hsv htv hleaf heq
      have hsfin : (b.resolve s).isFinite = true := hfin.resolve hs
      rw [← hresolve, or_self] at hleaf
      rw [← hresolve, Term.close_self hleaf hsfin] at hclose
      simp at hclose

/-- A solution of a problem with finite leaves survives in an outcome that moves explain. -/
theorem Explained.exists_unified {ps : List (Term × Term)} {b : Bindings} {o : Outcome}
    (hexp : Explained true ps b o) (hne : o ≠ .endless) (hb : b.Acyclic) {θ : String → Term}
    (hθ : Problem.SolvedBy ⟨ps, b⟩ θ) (hfin : Problem.All (fun u => u.isFinite = true) ⟨ps, b⟩) :
    ∃ c, o = .unified c ∧ c.SolvedBy θ := by
  cases o with
  | unified c =>
      have hmoves : Moves true ⟨ps, b⟩ ⟨[], c⟩ := by simpa using hexp []
      exact ⟨c, rfl, (hmoves.solvedBy hb hθ).1⟩
  | clash =>
      obtain ⟨s, t, qs, c, hmoves, hclash⟩ := hexp []
      rw [List.append_nil] at hmoves
      obtain ⟨hc, hpairs⟩ := hmoves.solvedBy hb hθ
      obtain ⟨hterms, hvalues⟩ := hmoves.all Term.hereditary_isFinite hfin
      have hfirst := hterms s t List.mem_cons_self
      exact (not_clash (hmoves.acyclic hb) hc (hpairs s t List.mem_cons_self) hvalues hfirst.1
        hclash).elim
  | endless => exact (hne rfl).elim

/-! ## The record of a run has a text -/

/-- All steps of a record have a text. -/
def Written (log : List Step) : Prop :=
  ∀ step ∈ log, step.hasText = true

theorem written_cons {step : Step} {log : List Step} (hstep : step.hasText = true)
    (hlog : Written log) : Written (step :: log) := by
  intro st hst
  rcases List.mem_cons.mp hst with rfl | hst
  · exact hstep
  · exact hlog st hst

theorem written_bind {check : Bool} {x : String} {t : Term} {b : Bindings} {log : List Step}
    (ht : t.hasText = true) (hlog : Written log) : Written (bind check x t b log).2 := by
  have hbound : Written (.bound x t :: log) := written_cons ht hlog
  have hoccurs : Written (.occurs x t :: log) := written_cons ht hlog
  rw [bind]
  split
  · split
    · exact hlog
    · exact hoccurs
    · exact hbound
  · exact hbound

/-- What the record needs: acyclic bindings and integers with a written form throughout. -/
structure Writable (s t : Term) (b : Bindings) : Prop where
  acyclic : b.Acyclic
  left : s.hasText = true
  right : t.hasText = true
  values : b.Values fun u => u.hasText = true

theorem Writable.after {s t s' t' : Term} {b c : Bindings} (h : Writable s t b)
    (hmoves : Moves true ⟨[(s, t)], b⟩ ⟨[], c⟩) (hs' : s'.hasText = true)
    (ht' : t'.hasText = true) : Writable s' t' c := by
  refine ⟨hmoves.acyclic h.acyclic, hs', ht', ?_⟩
  have hstart : Problem.All (fun u => u.hasText = true) ⟨[(s, t)], b⟩ := by
    refine ⟨fun s₁ t₁ hmem => ?_, h.values⟩
    obtain ⟨rfl, rfl⟩ : s₁ = s ∧ t₁ = t := by simpa using hmem
    exact ⟨h.left, h.right⟩
  exact (hmoves.all Term.hereditary_hasText hstart).2

theorem written_pairs {pair : Term → Term → Bindings → List Step → Run}
    (hexp : ∀ s t b log, Explained true [(s, t)] b (pair s t b log).1)
    (hpair : ∀ s t b log, Writable s t b → Written log → Written (pair s t b log).2)
    (k : Nat) {ss ts : List Term} {b : Bindings} {log : List Step}
    (h : ∀ s ∈ ss, ∀ t ∈ ts, Writable s t b) (hlog : Written log) :
    Written (pairs pair k ss ts b log).2 := by
  induction ss generalizing k ts b log with
  | nil => exact hlog
  | cons s ss ih =>
      cases ts with
      | nil => exact hlog
      | cons t ts =>
          have hst : Writable s t b := h s (by simp) t (by simp)
          have hstep : Written (.argument k s t :: log) :=
            written_cons (by simp [Step.hasText, hst.left, hst.right]) hlog
          have hfirst := hpair s t b _ hst hstep
          have hmoves := hexp s t b (.argument k s t :: log)
          rcases hrun : pair s t b (.argument k s t :: log) with ⟨o, log'⟩
          rw [hrun] at hfirst hmoves
          cases o with
          | unified c =>
              rw [pairs_of_unified hrun]
              refine ih (k + 1) (fun s' hs' t' ht' => ?_) hfirst
              have hst' := h s' (by simp [hs']) t' (by simp [ht'])
              exact hst.after (by simpa using hmoves []) hst'.left hst'.right
          | clash | endless =>
              rw [pairs_of_stopped hrun (by simp)]
              exact hfirst

theorem written_terms (n : Nat) {s t : Term} {b : Bindings} {log : List Step}
    (h : Writable s t b) (hlog : Written log) : Written (terms true n s t b log).2 := by
  induction n generalizing s t b log with
  | zero => exact hlog
  | succ n ih =>
      have hs := h.values.resolve h.left
      have ht := h.values.resolve h.right
      have hcomparing : Written (.comparing (b.resolve s) (b.resolve t) :: log) :=
        written_cons (by simp [Step.hasText, hs, ht]) hlog
      rw [terms]
      refine resolved_cases (motive := fun r => Written r.2) ?_ ?_ ?_ ?_ ?_ ?_
      · intro x _ _
        exact written_cons rfl hcomparing
      · intro x _ _
        exact written_bind ht hcomparing
      · intro y _ _
        exact written_bind hs hcomparing
      · intro f ss ts hsf htf
        rw [hsf] at hs
        rw [htf] at ht
        rw [arguments]
        split
        · refine written_pairs (explained_terms true n) (fun _ _ _ _ => ih) 0 ?_ hcomparing
          intro s' hs' t' ht'
          exact ⟨h.acyclic, Term.hereditary_hasText _ _ hs s' hs',
            Term.hereditary_hasText _ _ ht t' ht', h.values⟩
        · exact written_cons rfl hcomparing
      · intro f g _ _ _ _ _
        exact written_cons rfl hcomparing
      · intro _ _ _
        split
        · exact written_cons rfl hcomparing
        · exact written_cons (by simp [Step.hasText, hs, ht]) hcomparing

theorem conclude_of_unified {r : Run} {c : Bindings} (hlog : Written r.2)
    (hr : r.1 = .unified c) : conclude r = .ok (some c) := by
  rw [conclude, if_pos (List.all_eq_true.mpr hlog), hr]

end Unify

namespace Unifier

open Unify

variable {u : Unifier} {b : Bindings} {θ : String → Term}

theorem exists_run_eq_unified (hu : u.occursCheck = true) (hb : b.Acyclic) {s t : Term}
    (hs : s.isFinite = true) (ht : t.isFinite = true)
    (hfin : b.Values fun v => v.isFinite = true) (hθ : b.SolvedBy θ)
    (hst : s.apply θ = t.apply θ) :
    ∃ c, (u.run s t b).1 = .unified c ∧ c.SolvedBy θ := by
  refine (explained_run hu hb s t).exists_unified (run_eq_terms hu hb s t).2 hb
    ⟨hθ, fun s' t' hmem => ?_⟩ ⟨fun s' t' hmem => ?_, hfin⟩
  all_goals obtain ⟨rfl, rfl⟩ : s' = s ∧ t' = t := by simpa using hmem
  · exact hst
  · exact ⟨hs, ht⟩

theorem exists_runArgs_eq_unified (hu : u.occursCheck = true) (hb : b.Acyclic) {ss ts : List Term}
    (hss : ∀ s ∈ ss, s.isFinite = true) (hts : ∀ t ∈ ts, t.isFinite = true)
    (hfin : b.Values fun v => v.isFinite = true) (hθ : b.SolvedBy θ)
    (hst : ss.map (Term.apply θ) = ts.map (Term.apply θ)) :
    ∃ c, (u.runArgs ss ts b).1 = .unified c ∧ c.SolvedBy θ := by
  have hlen : ss.length = ts.length := by simpa using congrArg List.length hst
  refine (explained_runArgs hu hb hlen).exists_unified (runArgs_eq_arguments hu hb ss ts).2 hb
    ⟨hθ, fun s t hmem => zip_apply_eq hst hmem⟩ ⟨fun s t hmem => ?_, hfin⟩
  obtain ⟨hs, ht⟩ := List.of_mem_zip hmem
  exact ⟨hss s hs, hts t ht⟩

/-- Unification finds bindings whenever a substitution that solves the given bindings makes the two
terms equal, and that substitution solves the bindings it finds. -/
theorem exists_unify_solvedBy (hu : u.occursCheck = true) (hb : b.Acyclic) {s t : Term}
    (hs : s.isFinite = true ∧ s.hasText = true) (ht : t.isFinite = true ∧ t.hasText = true)
    (hvalues : b.Values fun v => v.isFinite = true ∧ v.hasText = true) (hθ : b.SolvedBy θ)
    (hst : s.apply θ = t.apply θ) :
    ∃ c, u.unify s t b = .ok (some c) ∧ c.SolvedBy θ := by
  have hfin : b.Values fun v => v.isFinite = true := fun x v hv => (hvalues x v hv).1
  obtain ⟨c, hrun, hc⟩ := exists_run_eq_unified hu hb hs.1 ht.1 hfin hθ hst
  refine ⟨c, conclude_of_unified ?_ hrun, hc⟩
  rw [(run_eq_terms hu hb s t).1]
  have hwritable : Writable s t b := ⟨hb, hs.2, ht.2, fun x v hv => (hvalues x v hv).2⟩
  exact written_terms _ hwritable fun step hstep => by simp at hstep

/-- A shared variable that is bound to a compound term already, and a solution that fills it. -/
theorem exists_unify_solvedBy_shared :
    let b := (∅ : Bindings).insert "X" (.compound "g" [.var "Y"])
    let s : Term := .compound "f" [.var "X", .var "Z"]
    let t : Term := .compound "f" [.compound "g" [.float 2.5], .var "X"]
    let θ : String → Term := fun x => if x = "Y" then .float 2.5 else .compound "g" [.float 2.5]
    b.SolvedBy θ ∧ s.apply θ = t.apply θ ∧
      ∃ c, ({} : Unifier).unify s t b = .ok (some c) ∧ c.SolvedBy θ := by
  intro b s t θ
  have hb : b.Acyclic := Bindings.acyclic_empty.insert_of_occurs? (Bindings.get?_empty "X") rfl
  have hθ : b.SolvedBy θ := Bindings.solvedBy_insert (Bindings.solvedBy_empty θ) rfl
  have hst : s.apply θ = t.apply θ := rfl
  have hvalues : b.Values fun v => v.isFinite = true ∧ v.hasText = true :=
    (Bindings.values_empty _).insert "X" ⟨rfl, rfl⟩
  exact ⟨hθ, hst, exists_unify_solvedBy (u := {}) rfl hb ⟨rfl, rfl⟩ ⟨rfl, rfl⟩ hvalues hθ hst⟩

end Unifier

end Clausal
