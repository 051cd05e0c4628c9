import Clausal.Proofs.Bindings.Residue
import Clausal.Proofs.Unify.Nesting
import Mathlib.Data.Option.Defs

/-!
# Unification and what is left of bindings

Terms under grown bindings and their instances under the residue are unified by the same steps: both
sides compare the same pairs, bind the same variables and refuse for the same reasons. What they
bind them to, and what the record of the steps shows, differs by the images that were put in. So one
of the two may meet a term without a text that the other does not show.
-/

namespace Clausal

/-- Results under grown bindings and under the residue. One side may fail for want of a text. -/
inductive Bindings.ResidueOr (b : Bindings) :
    Except Fault (Option Bindings) → Except Fault (Option Bindings) → Prop
  | ok {o o' : Option Bindings} (h : Option.Rel b.Residue o o') : ResidueOr b (.ok o) (.ok o')
  | left {y : Except Fault (Option Bindings)} : ResidueOr b (.error .unwritable) y
  | right {x : Except Fault (Option Bindings)} : ResidueOr b x (.error .unwritable)

namespace Unify

/-- Outcomes under grown bindings and under the residue, where both runs come to an end. -/
inductive Corresponds (b : Bindings) : Outcome → Outcome → Prop
  | unified {c d : Bindings} (h : b.Residue c d) : Corresponds b (.unified c) (.unified d)
  | clash : Corresponds b .clash .clash
  | left {o : Outcome} : Corresponds b .endless o
  | right {o : Outcome} : Corresponds b o .endless

/-- Corresponding pairs have corresponding outcomes, whatever was recorded before. -/
def Carries (b : Bindings) (pair pair' : Term → Term → Bindings → List Step → Run) : Prop :=
  ∀ s t c d log log', b.Residue c d → Corresponds b (pair s t c log).1
    (pair' (s.apply b.image) (t.apply b.image) d log').1

variable {b c d : Bindings} {pair pair' : Term → Term → Bindings → List Step → Run}

theorem corresponds_bind (h : b.Residue c d) {x : String} (hx : c.get? x = none) (t : Term)
    (log log' : List Step) :
    Corresponds b (bind true x t c log).1 (bind true x (t.apply b.image) d log').1 := by
  rw [bind, bind, h.occurs?_apply]
  rcases hocc : c.occurs? x t with _ | _ | _
  · exact .left
  · exact .unified (h.insert hx hocc)
  · exact .clash

theorem corresponds_pairs (hpair : Carries b pair pair') (k : Nat) (ss ts : List Term)
    (h : b.Residue c d) (log log' : List Step) :
    Corresponds b (pairs pair k ss ts c log).1
      (pairs pair' k (ss.map (Term.apply b.image)) (ts.map (Term.apply b.image)) d log').1 := by
  induction ss generalizing k ts c d log log' with
  | nil => exact .unified h
  | cons s ss ih =>
      cases ts with
      | nil => exact .unified h
      | cons t ts =>
          have hfirst := hpair s t c d (.argument k s t :: log)
            (.argument k (s.apply b.image) (t.apply b.image) :: log') h
          rw [List.map_cons, List.map_cons, pairs, pairs]
          generalize pair s t c _ = r, pair' (s.apply b.image) (t.apply b.image) d _ = r' at hfirst
          obtain ⟨o, l⟩ := r
          obtain ⟨o', l'⟩ := r'
          cases hfirst with
          | unified hnext => exact ih (k + 1) ts hnext l l'
          | clash => exact .clash
          | left => exact .left
          | right => exact .right

theorem corresponds_arguments (hpair : Carries b pair pair') (ss ts : List Term) (h : b.Residue c d)
    (log log' : List Step) :
    Corresponds b (arguments pair ss ts c log).1
      (arguments pair' (ss.map (Term.apply b.image)) (ts.map (Term.apply b.image)) d log').1 := by
  rw [arguments, arguments, List.length_map, List.length_map]
  split
  · exact corresponds_pairs hpair 0 ss ts h log log'
  · exact .clash

theorem corresponds_resolved (hpair : Carries b pair pair') (h : b.Residue c d) {s t : Term}
    (hs : ∀ x, s = .var x → c.get? x = none) (ht : ∀ x, t = .var x → c.get? x = none)
    (log log' : List Step) :
    Corresponds b (resolved true pair s t c log).1
      (resolved true pair' (s.apply b.image) (t.apply b.image) d log').1 := by
  -- Variables that do not resolve any further stand for themselves on both sides.
  have himage : ∀ {x : String}, c.get? x = none → b.image x = .var x :=
    fun hx => Bindings.image_of_unbound (h.get?_of_unbound hx)
  cases s with
  | var x =>
      have hx := hs x rfl
      have hbind := corresponds_bind h hx t
      cases t with
      | var y =>
          rw [Term.apply_var, Term.apply_var, himage hx, himage (ht y rfl)]
          rw [Term.apply_var, himage (ht y rfl)] at hbind
          simp only [resolved]
          split
          · exact .unified h
          · exact hbind log log'
      | compound g ts =>
          rw [Term.apply_var, himage hx, Term.apply_compound]
          rw [Term.apply_compound] at hbind
          exact hbind log log'
      | atom _ | int _ | float _ | str _ =>
          rw [Term.apply_var, himage hx]
          exact hbind log log'
  | compound f ss =>
      cases t with
      | var y =>
          have hbind := corresponds_bind h (ht y rfl) (.compound f ss)
          rw [Term.apply_compound] at hbind
          rw [Term.apply_compound, Term.apply_var, himage (ht y rfl)]
          exact hbind log log'
      | compound g ts =>
          rw [Term.apply_compound, Term.apply_compound]
          simp only [resolved]
          split
          · exact corresponds_arguments hpair ss ts h log log'
          · exact .clash
      | atom _ | int _ | float _ | str _ =>
          rw [Term.apply_compound]
          exact .clash
  | atom _ | int _ | float _ | str _ =>
      cases t with
      | var y =>
          rw [Term.apply_var, himage (ht y rfl)]
          exact corresponds_bind h (ht y rfl) _ log log'
      | compound g ts =>
          rw [Term.apply_compound]
          exact .clash
      | _ =>
          simp only [resolved, Term.apply]
          split
          · exact .unified h
          · exact .clash

theorem corresponds_terms (b : Bindings) (n m : Nat) : Carries b (terms true n) (terms true m) := by
  induction n generalizing m with
  | zero => exact fun _ _ _ _ _ _ _ => .left
  | succ n ih =>
      intro s t c d log log' h
      cases m with
      | zero => exact .right
      | succ m =>
          rw [terms, terms, h.resolve_apply, h.resolve_apply]
          exact corresponds_resolved (ih m) h (fun _ hx => h.acyclic.get?_of_resolve_var hx)
            (fun _ hx => h.acyclic.get?_of_resolve_var hx) _ _

theorem residueOr_conclude {r r' : Run} (h : Corresponds b r.1 r'.1) (hr : r.1 ≠ .endless)
    (hr' : r'.1 ≠ .endless) : b.ResidueOr (conclude r) (conclude r') := by
  rw [conclude, conclude]
  by_cases htext : r.2.all Step.hasText = true
  · by_cases htext' : r'.2.all Step.hasText = true
    · rw [if_pos htext, if_pos htext']
      generalize r.1 = o, r'.1 = o' at h hr hr'
      cases h with
      | unified h => exact .ok (.some h)
      | clash => exact .ok .none
      | left => exact (hr rfl).elim
      | right => exact (hr' rfl).elim
    · rw [if_neg htext']
      exact .right
  · rw [if_neg htext]
    exact .left

end Unify

namespace Unifier

variable {u : Unifier} {b c d : Bindings}

theorem residueOr_unify (hu : u.occursCheck = true) (h : b.Residue c d) (s t : Term) :
    b.ResidueOr (u.unify s t c) (u.unify (s.apply b.image) (t.apply b.image) d) := by
  obtain ⟨hrun, hends⟩ := run_eq_terms hu h.acyclic s t
  obtain ⟨hrun', hends'⟩ := run_eq_terms hu h.acyclic_residue (s.apply b.image) (t.apply b.image)
  refine Unify.residueOr_conclude ?_ hends hends'
  rw [hrun, hrun']
  exact Unify.corresponds_terms b _ _ s t c d [] [] h

theorem residueOr_unifyArgs (hu : u.occursCheck = true) (h : b.Residue c d) (ss ts : List Term) :
    b.ResidueOr (u.unifyArgs ss ts c)
      (u.unifyArgs (ss.map (Term.apply b.image)) (ts.map (Term.apply b.image)) d) := by
  obtain ⟨hrun, hends⟩ := runArgs_eq_arguments hu h.acyclic ss ts
  obtain ⟨hrun', hends'⟩ := runArgs_eq_arguments hu h.acyclic_residue (ss.map (Term.apply b.image))
    (ts.map (Term.apply b.image))
  refine Unify.residueOr_conclude ?_ hends hends'
  rw [hrun, hrun']
  exact Unify.corresponds_arguments (Unify.corresponds_terms b _ _) ss ts h [] []

end Unifier

end Clausal
