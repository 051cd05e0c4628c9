import Clausal.Builtin
import Clausal.Proofs.Bindings.MapVars
import Clausal.Unify.Basic

/-!
# Unification and one-to-one renaming

Unification compares names but never looks inside them, and it binds the left one of two
variables whatever they are called. So it commutes with one-to-one renaming: the outcome, the
bindings and the record of the steps are renamed, and the same integers lack a text. The built-in
predicates inherit this.
-/

namespace Clausal

theorem eraseDups_map_of_injective {α β : Type} [DecidableEq α] [DecidableEq β] {f : α → β}
    (hf : Function.Injective f) (l : List α) : (l.map f).eraseDups = l.eraseDups.map f := by
  induction hn : l.length using Nat.strong_induction_on generalizing l with
  | _ n ih =>
      cases l with
      | nil => rfl
      | cons a l =>
          have htest : (fun b => !b == f a) ∘ f = fun b => !b == a := by
            funext b
            rw [Function.comp_apply, Bool.eq_iff_iff]
            simp [hf.eq_iff]
          have hlt : (l.filter fun b => !b == a).length < n := by
            rw [← hn, List.length_cons]
            exact Nat.lt_succ_of_le (List.length_filter_le _ _)
          rw [List.map_cons, List.eraseDups_cons, List.eraseDups_cons, List.filter_map, htest,
            ih _ hlt _ rfl, List.map_cons]

/-- Renames the terms that a step is about. -/
def Step.mapVars (f : String → String) : Step → Step
  | argument place s t => .argument place (s.mapVars f) (t.mapVars f)
  | comparing s t => .comparing (s.mapVars f) (t.mapVars f)
  | bound x t => .bound (f x) (t.mapVars f)
  | occurs x t => .occurs (f x) (t.mapVars f)
  | different s t => .different (s.mapVars f) (t.mapVars f)
  | step => step

theorem Step.hasText_mapVars (f : String → String) (step : Step) :
    (step.mapVars f).hasText = step.hasText := by
  cases step <;> simp [mapVars, hasText, Term.hasText_mapVars]

def Outcome.mapVars (f : String → String) : Outcome → Outcome
  | unified b => .unified (b.mapVars f)
  | outcome => outcome

namespace Unify

/-- Renames the outcome and the record of a run. -/
def Run.mapVars (f : String → String) (r : Run) : Run :=
  (r.1.mapVars f, r.2.map (Step.mapVars f))

variable {f : String → String}

/-- Unifying renamed terms gives the renamed run. -/
def Commutes (f : String → String) (pair : Term → Term → Bindings → List Step → Run) : Prop :=
  ∀ s t b log, pair (s.mapVars f) (t.mapVars f) (b.mapVars f) (log.map (Step.mapVars f)) =
    Run.mapVars f (pair s t b log)

theorem pairs_mapVars {pair : Term → Term → Bindings → List Step → Run} (hpair : Commutes f pair)
    (k : Nat) (ss ts : List Term) (b : Bindings) (log : List Step) :
    pairs pair k (Term.mapVarsAll f ss) (Term.mapVarsAll f ts) (b.mapVars f)
      (log.map (Step.mapVars f)) = Run.mapVars f (pairs pair k ss ts b log) := by
  induction ss generalizing k ts b log with
  | nil => rfl
  | cons s ss ih =>
      cases ts with
      | nil => rfl
      | cons t ts =>
          have hfirst : pair (s.mapVars f) (t.mapVars f) (b.mapVars f)
              (.argument k (s.mapVars f) (t.mapVars f) :: log.map (Step.mapVars f)) =
                Run.mapVars f (pair s t b (.argument k s t :: log)) :=
            hpair s t b (.argument k s t :: log)
          rw [Term.mapVarsAll, Term.mapVarsAll, pairs, pairs, hfirst]
          rcases pair s t b (.argument k s t :: log) with ⟨o, log'⟩
          cases o with
          | unified c => exact ih (k + 1) ts c log'
          | clash | endless => rfl

theorem arguments_mapVars {pair : Term → Term → Bindings → List Step → Run}
    (hpair : Commutes f pair) (ss ts : List Term) (b : Bindings) (log : List Step) :
    arguments pair (Term.mapVarsAll f ss) (Term.mapVarsAll f ts) (b.mapVars f)
      (log.map (Step.mapVars f)) = Run.mapVars f (arguments pair ss ts b log) := by
  rw [arguments, arguments, Term.length_mapVarsAll, Term.length_mapVarsAll]
  split
  · exact pairs_mapVars hpair 0 ss ts b log
  · rfl

theorem conclude_mapVars (f : String → String) (r : Run) :
    conclude (Run.mapVars f r) = (conclude r).map (Option.map (Bindings.mapVars f)) := by
  have htext : (r.2.map (Step.mapVars f)).all Step.hasText = r.2.all Step.hasText := by
    rw [List.all_map]
    congr 1
    exact funext (Step.hasText_mapVars f)
  rw [conclude, conclude, Run.mapVars, htext]
  split
  · rcases r with ⟨_ | _ | _, log⟩ <;> rfl
  · rfl

variable (hf : Function.Injective f)

include hf

theorem bind_mapVars (check : Bool) (x : String) (t : Term) (b : Bindings) (log : List Step) :
    bind check (f x) (t.mapVars f) (b.mapVars f) (log.map (Step.mapVars f)) =
      Run.mapVars f (bind check x t b log) := by
  rw [bind, bind, Bindings.occurs?_mapVars hf, ← Bindings.mapVars_insert]
  split
  · rcases b.occurs? x t with _ | _ | _ <;> rfl
  · rfl

theorem resolved_mapVars (check : Bool) {pair : Term → Term → Bindings → List Step → Run}
    (hpair : Commutes f pair) (s t : Term) (b : Bindings) (log : List Step) :
    resolved check pair (s.mapVars f) (t.mapVars f) (b.mapVars f) (log.map (Step.mapVars f)) =
      Run.mapVars f (resolved check pair s t b log) := by
  cases s with
  | var x =>
      cases t with
      | var y =>
          simp only [Term.mapVars, resolved, hf.beq_eq]
          split
          · rfl
          · exact bind_mapVars hf check x (.var y) b log
      | _ => exact bind_mapVars hf check x _ b log
  | compound g ss =>
      cases t with
      | var y => exact bind_mapVars hf check y (.compound g ss) b log
      | compound h ts =>
          simp only [Term.mapVars, resolved]
          split
          · exact arguments_mapVars hpair ss ts b log
          · rfl
      | _ => rfl
  | atom _ | int _ | float _ | str _ =>
      -- Leaves have no names in them; whether two of them are close is decided as before.
      cases t with
      | var y => exact bind_mapVars hf check y _ b log
      | compound _ _ => rfl
      | _ =>
          simp only [Term.mapVars, resolved]
          split <;> rfl

theorem terms_mapVars (check : Bool) (n : Nat) : Commutes f (terms check n) := by
  induction n with
  | zero => exact fun _ _ _ _ => rfl
  | succ n ih =>
      intro s t b log
      rw [terms, terms, Bindings.resolve_mapVars hf, Bindings.resolve_mapVars hf]
      exact resolved_mapVars hf check ih _ _ b (.comparing (b.resolve s) (b.resolve t) :: log)

theorem openCount_mapVars (ts : List Term) (b : Bindings) :
    openCount (Term.mapVarsAll f ts) (b.mapVars f) = openCount ts b := by
  have hentries : ((b.mapVars f).entries.flatMap fun e => e.1 :: e.2.vars) =
      (b.entries.flatMap fun e => e.1 :: e.2.vars).map f := by
    change ((b.entries.map _).flatMap _) = _
    rw [List.flatMap_map, List.map_flatMap]
    exact List.flatMap_congr fun e _ => by rw [Term.vars_mapVars, List.map_cons]
  rw [openCount, openCount, allVars, allVars, Term.varsAll_mapVarsAll, hentries,
    ← List.map_append, eraseDups_map_of_injective hf, List.countP_map]
  exact List.countP_congr fun x _ => by rw [Function.comp_apply, Bindings.isOpen_mapVars hf]

theorem within_mapVars {run run' : Nat → Run} (hrun : ∀ n, run' n = Run.mapVars f (run n))
    (ts : List Term) (b : Bindings) :
    within (Term.mapVarsAll f ts) (b.mapVars f) run' = Run.mapVars f (within ts b run) := by
  rw [within, within, openCount_mapVars hf, Term.compoundsAll_mapVarsAll, hrun, hrun]
  dsimp only [Bindings.weight_mapVars]
  rcases run (b.weight + Term.compoundsAll ts + 1) with ⟨o, log⟩
  cases o <;> rfl

end Unify

namespace Unifier

variable {f : String → String} (hf : Function.Injective f) (u : Unifier)

include hf

theorem unify_mapVars (s t : Term) (b : Bindings) :
    u.unify (s.mapVars f) (t.mapVars f) (b.mapVars f) =
      (u.unify s t b).map (Option.map (Bindings.mapVars f)) := by
  rw [unify, unify, ← Unify.conclude_mapVars]
  refine congrArg Unify.conclude ?_
  exact Unify.within_mapVars hf (fun n => Unify.terms_mapVars hf u.occursCheck n s t b []) [s, t] b

theorem unifyArgs_mapVars (ss ts : List Term) (b : Bindings) :
    u.unifyArgs (Term.mapVarsAll f ss) (Term.mapVarsAll f ts) (b.mapVars f) =
      (u.unifyArgs ss ts b).map (Option.map (Bindings.mapVars f)) := by
  rw [unifyArgs, unifyArgs, ← Unify.conclude_mapVars]
  have hboth : Term.mapVarsAll f ss ++ Term.mapVarsAll f ts = Term.mapVarsAll f (ss ++ ts) := by
    simp only [Term.mapVarsAll_eq, List.map_append]
  rw [runArgs, runArgs, hboth]
  refine congrArg Unify.conclude (Unify.within_mapVars hf (fun n => ?_) (ss ++ ts) b)
  exact Unify.arguments_mapVars (Unify.terms_mapVars hf u.occursCheck n) ss ts b []

end Unifier

namespace Builtin

theorem valueTerm?_eq (t : Term) (b : Bindings) :
    valueTerm? t b =
      (withoutCause (b.evaluate t)).map (Option.map fun n => n.normalize.toTerm) := by
  rw [valueTerm?]
  rcases b.evaluate t with e | n
  · cases e <;> rfl
  · rfl

variable {f : String → String} (hf : Function.Injective f) (u : Unifier)

include hf

/-- The value of an expression is a number, which has no names in it. -/
theorem valueTerm?_mapVars (t : Term) (b : Bindings) :
    valueTerm? (t.mapVars f) (b.mapVars f) = valueTerm? t b := by
  rw [valueTerm?_eq, valueTerm?_eq, Bindings.withoutCause_evaluate hf]

theorem solveResolved_mapVars (p : String) (l r : Term) (b : Bindings) :
    solveResolved u p (l.mapVars f) (r.mapVars f) (b.mapVars f) =
      (solveResolved u p l r b).map (Option.map (Bindings.mapVars f)) := by
  rw [solveResolved, solveResolved, valueTerm?_mapVars hf, valueTerm?_eq]
  split
  · exact u.unify_mapVars hf l r b
  · cases Comparison.ofSymbol? p with
    | some c =>
        dsimp only
        rw [Term.number?_mapVars, Term.number?_mapVars]
        rcases l.number? with _ | m
        · rfl
        · rcases r.number? with _ | n
          · rfl
          · dsimp only
            split <;> rfl
    | none =>
        dsimp only
        split
        · rcases withoutCause (b.evaluate r) with e | _ | n
          · rfl
          · rfl
          · have hclosed : n.normalize.toTerm.mapVars f = n.normalize.toTerm := by
              cases n.normalize <;> rfl
            have hunify := u.unify_mapVars hf l n.normalize.toTerm b
            rwa [hclosed] at hunify
        · rfl

theorem solve_mapVars (g : Goal) (b : Bindings) :
    solve u (g.mapVars f) (b.mapVars f) = (solve u g b).map (Option.map (Bindings.mapVars f)) := by
  obtain ⟨p, args, negated⟩ := g
  match args with
  | [l, r] =>
      change solveResolved u p ((b.mapVars f).resolve (l.mapVars f))
        ((b.mapVars f).resolve (r.mapVars f)) (b.mapVars f) = _
      rw [Bindings.resolve_mapVars hf, Bindings.resolve_mapVars hf]
      exact solveResolved_mapVars hf u p _ _ b
  | [] | [_] | _ :: _ :: _ :: _ => rfl

end Builtin

end Clausal
