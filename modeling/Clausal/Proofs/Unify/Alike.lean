import Clausal.Proofs.Bindings.Alike
import Clausal.Proofs.Unify.Nesting
import Mathlib.Data.Option.Defs

/-!
# Unification under bindings that are alike

Terms over names on which bindings are alike are unified by the same steps under both of them, and
the bindings stay alike. Even the record of the steps is the same. The bounds on the nesting are
read off all of the bindings, so they differ; both suffice.
-/

namespace Clausal

/-- The same fault, or results that are alike. -/
inductive Bindings.AlikeOr (R : String → Prop) :
    Except Fault (Option Bindings) → Except Fault (Option Bindings) → Prop
  | ok {o o' : Option Bindings} (h : Option.Rel (Alike R) o o') : AlikeOr R (.ok o) (.ok o')
  | error (e : Fault) : AlikeOr R (.error e) (.error e)

namespace Unify

/-- Runs with the same record and outcomes that are alike, where both come to an end. -/
inductive AlikeRuns (R : String → Prop) : Run → Run → Prop
  | unified {c c' : Bindings} (h : c.Alike R c') (log : List Step) :
      AlikeRuns R (.unified c, log) (.unified c', log)
  | clash (log : List Step) : AlikeRuns R (.clash, log) (.clash, log)
  | left {log : List Step} {r : Run} : AlikeRuns R (.endless, log) r
  | right {log : List Step} {r : Run} : AlikeRuns R r (.endless, log)

/-- Terms over the names are unified alike under bindings that are alike. -/
def AlikePair (R : String → Prop) (pair pair' : Term → Term → Bindings → List Step → Run) : Prop :=
  ∀ s t c c' log, s.Within R → t.Within R → c.Alike R c' →
    AlikeRuns R (pair s t c log) (pair' s t c' log)

variable {R : String → Prop} {c c' : Bindings}
  {pair pair' : Term → Term → Bindings → List Step → Run}

theorem alikeRuns_bind (h : c.Alike R c') {x : String} {t : Term} (hx : R x) (ht : t.Within R)
    (hfree : c.get? x = none) (log : List Step) :
    AlikeRuns R (bind true x t c log) (bind true x t c' log) := by
  rw [bind, bind, h.occurs?_eq x ht]
  rcases hocc : c.occurs? x t with _ | _ | _
  · exact .left
  · exact .unified (h.insert hx ht hfree hocc) _
  · exact .clash _

theorem alikeRuns_pairs (hpair : AlikePair R pair pair') (k : Nat) {ss ts : List Term}
    (hss : ∀ s ∈ ss, s.Within R) (hts : ∀ t ∈ ts, t.Within R) (h : c.Alike R c') (log : List Step) :
    AlikeRuns R (pairs pair k ss ts c log) (pairs pair' k ss ts c' log) := by
  induction ss generalizing k ts c c' log with
  | nil => exact .unified h log
  | cons s ss ih =>
      cases ts with
      | nil => exact .unified h log
      | cons t ts =>
          have hfirst :=
            hpair s t c c' (.argument k s t :: log) (hss s (by simp)) (hts t (by simp)) h
          rw [pairs, pairs]
          generalize pair s t c _ = r, pair' s t c' _ = r' at hfirst
          cases hfirst with
          | unified hnext log' =>
              exact ih (k + 1) (fun s hs => hss s (by simp [hs])) (fun t ht => hts t (by simp [ht]))
                hnext log'
          | clash log' => exact .clash log'
          | left => exact .left
          | right => exact .right

theorem alikeRuns_arguments (hpair : AlikePair R pair pair') {ss ts : List Term}
    (hss : ∀ s ∈ ss, s.Within R) (hts : ∀ t ∈ ts, t.Within R) (h : c.Alike R c') (log : List Step) :
    AlikeRuns R (arguments pair ss ts c log) (arguments pair' ss ts c' log) := by
  rw [arguments, arguments]
  split
  · exact alikeRuns_pairs hpair 0 hss hts h log
  · exact .clash _

theorem alikeRuns_resolved (hpair : AlikePair R pair pair') (h : c.Alike R c') {s t : Term}
    (hs : s.Within R) (ht : t.Within R) (hsfree : ∀ x, s = .var x → c.get? x = none)
    (htfree : ∀ x, t = .var x → c.get? x = none) (log : List Step) :
    AlikeRuns R (resolved true pair s t c log) (resolved true pair' s t c' log) := by
  refine resolved_cases_both (motive := AlikeRuns R) ?_ ?_ ?_ ?_ ?_ ?_
  · exact fun _ _ _ => .unified h _
  · rintro x rfl _
    exact alikeRuns_bind h (Term.within_var.mp hs) ht (hsfree x rfl) log
  · rintro y _ rfl
    exact alikeRuns_bind h (Term.within_var.mp ht) hs (htfree y rfl) log
  · rintro f ss ts rfl rfl
    exact alikeRuns_arguments hpair (Term.hereditary_within R f ss hs)
      (Term.hereditary_within R f ts ht) h log
  · exact fun _ _ _ _ _ _ _ => .clash _
  · intro _ _ _
    split
    · exact .unified h _
    · exact .clash _

theorem alikeRuns_terms (R : String → Prop) (n m : Nat) :
    AlikePair R (terms true n) (terms true m) := by
  induction n generalizing m with
  | zero => exact fun _ _ _ _ _ _ _ _ => .left
  | succ n ih =>
      intro s t c c' log hs ht h
      cases m with
      | zero => exact .right
      | succ m =>
          obtain ⟨hseq, hs⟩ := h.resolve_eq hs
          obtain ⟨hteq, ht⟩ := h.resolve_eq ht
          rw [terms, terms, hseq, hteq]
          exact alikeRuns_resolved (ih m) h hs ht (fun _ hx => h.acyclic.get?_of_resolve_var hx)
            (fun _ hx => h.acyclic.get?_of_resolve_var hx) _

theorem alikeOr_conclude {r r' : Run} (h : AlikeRuns R r r') (hr : r.1 ≠ .endless)
    (hr' : r'.1 ≠ .endless) : Bindings.AlikeOr R (conclude r) (conclude r') := by
  cases h with
  | unified h log =>
      rw [conclude, conclude]
      split
      · exact .ok (.some h)
      · exact .error _
  | clash log =>
      rw [conclude]
      split
      · exact .ok .none
      · exact .error _
  | left => exact (hr rfl).elim
  | right => exact (hr' rfl).elim

end Unify

namespace Unifier

variable {u : Unifier} {R : String → Prop} {c c' : Bindings}

theorem alikeOr_unify (hu : u.occursCheck = true) (h : c.Alike R c') {s t : Term} (hs : s.Within R)
    (ht : t.Within R) : Bindings.AlikeOr R (u.unify s t c) (u.unify s t c') := by
  obtain ⟨hrun, hends⟩ := run_eq_terms hu h.acyclic s t
  obtain ⟨hrun', hends'⟩ := run_eq_terms hu h.acyclic' s t
  refine Unify.alikeOr_conclude ?_ hends hends'
  rw [hrun, hrun']
  exact Unify.alikeRuns_terms R _ _ s t c c' [] hs ht h

theorem alikeOr_unifyArgs (hu : u.occursCheck = true) (h : c.Alike R c') {ss ts : List Term}
    (hss : ∀ s ∈ ss, s.Within R) (hts : ∀ t ∈ ts, t.Within R) :
    Bindings.AlikeOr R (u.unifyArgs ss ts c) (u.unifyArgs ss ts c') := by
  obtain ⟨hrun, hends⟩ := runArgs_eq_arguments hu h.acyclic ss ts
  obtain ⟨hrun', hends'⟩ := runArgs_eq_arguments hu h.acyclic' ss ts
  refine Unify.alikeOr_conclude ?_ hends hends'
  rw [hrun, hrun']
  exact Unify.alikeRuns_arguments (Unify.alikeRuns_terms R _ _) hss hts h []

end Unifier

end Clausal
