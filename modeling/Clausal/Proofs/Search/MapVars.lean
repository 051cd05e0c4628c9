import Clausal.Proofs.Search.Selection
import Clausal.Proofs.Unify.MapVars

/-!
# Selection and one-to-one renaming

Scores count unbound arguments and clauses, and a goal is ready when the inputs that it needs are
ground. Neither depends on names, so the same goal is selected after a one-to-one renaming.
Propagation unifies with ground facts only, which a renaming leaves as they are.
-/

namespace Clausal

variable {f : String → String}

@[simp] theorem Goal.predicate_mapVars (f : String → String) (g : Goal) :
    (g.mapVars f).predicate = g.predicate := rfl

@[simp] theorem Goal.negated_mapVars (f : String → String) (g : Goal) :
    (g.mapVars f).negated = g.negated := rfl

@[simp] theorem Goal.args_mapVars (f : String → String) (g : Goal) :
    (g.mapVars f).args = Term.mapVarsAll f g.args := rfl

@[simp] theorem Goal.arity_mapVars (f : String → String) (g : Goal) :
    (g.mapVars f).arity = g.arity :=
  Term.length_mapVarsAll f g.args

theorem Goal.hasText_mapVars (f : String → String) (g : Goal) :
    (g.mapVars f).hasText = g.hasText :=
  Term.hasTextAll_mapVarsAll f g.args

theorem Goal.substitute?_mapVars (hf : Function.Injective f) (g : Goal) (b : Bindings) :
    (g.mapVars f).substitute? (b.mapVars f) = (g.substitute? b).map (Goal.mapVars f) := by
  rw [Goal.substitute?, Goal.substitute?]
  change ((b.mapVars f).substituteAll? (Term.mapVarsAll f g.args)).map _ = _
  rw [Bindings.substituteAll?_mapVars hf]
  cases b.substituteAll? g.args <;> rfl

theorem Term.mapVarsAll_of_isGroundAll {ts : List Term} (h : Term.isGroundAll ts = true)
    (f : String → String) : Term.mapVarsAll f ts = ts := by
  have hground : (Term.compound "" ts).isGround = true := h
  have hself := Term.mapVars_eq_self (f := f) fun x hx => (Term.isGround_iff.mp hground x hx).elim
  exact (Term.compound.inj hself).2

namespace Search

def Selection.mapVars (f : String → String) (sel : Selection) : Selection :=
  ⟨sel.goal.mapVars f, sel.rest.map (Goal.mapVars f), sel.bindings.mapVars f⟩

def State.mapVars (f : String → String) (s : State) : State :=
  ⟨s.goals.map (Goal.mapVars f), s.bindings.mapVars f, s.depth⟩

variable (hf : Function.Injective f)

include hf

theorem isReady?_mapVars (g : Goal) (b : Bindings) :
    isReady? (g.mapVars f) (b.mapVars f) = isReady? g b := by
  simp only [isReady?, Goal.negated_mapVars, Goal.predicate_mapVars, Goal.arity_mapVars,
    Goal.args_mapVars, Bindings.substituteAll?_mapVars hf]
  split
  · rcases b.substituteAll? g.args with _ | ts
    · rfl
    · exact congrArg some (Term.isGroundAll_mapVarsAll f ts)
  · cases g.predicate == "is" with
    | false => rfl
    | true =>
        match g.args with
        | [_, e] =>
            simp only [Term.mapVarsAll, Bindings.substitute?_mapVars hf]
            rcases b.substitute? e with _ | t
            · rfl
            · exact congrArg some (Term.isGround_mapVars f t)
        | [] | [_] | _ :: _ :: _ :: _ => rfl

theorem isVar_resolve_mapVars (b : Bindings) :
    (fun t => ((b.mapVars f).resolve t).isVar) ∘ Term.mapVars f = fun t => (b.resolve t).isVar := by
  funext t
  rw [Function.comp_apply, Bindings.resolve_mapVars hf, Term.isVar_mapVars]

theorem hasUnbound_mapVars (g : Goal) (b : Bindings) :
    hasUnbound (g.mapVars f) (b.mapVars f) = hasUnbound g b := by
  rw [hasUnbound, hasUnbound, Goal.mapVars, Term.mapVarsAll_eq, List.any_map,
    isVar_resolve_mapVars hf]

theorem score_mapVars (kb : KnowledgeBase) (g : Goal) (b : Bindings) :
    score kb (g.mapVars f) (b.mapVars f) = score kb g b := by
  rw [score, score, Goal.mapVars, Term.mapVarsAll_eq, List.countP_map, isVar_resolve_mapVars hf]

theorem selectIndex?_mapVars (kb : KnowledgeBase) (gs : List Goal) (b : Bindings) :
    selectIndex? kb (gs.map (Goal.mapVars f)) (b.mapVars f) = selectIndex? kb gs b := by
  refine selectIndex?_of_forall₂
    (List.forall₂_map_right_iff.mpr (List.forall₂_same.mpr fun g _ => ?_))
  exact ⟨isReady?_mapVars hf g b, score_mapVars hf kb g b⟩

theorem propagate_mapVars (kb : KnowledgeBase) (u : Unifier) (gs : List Goal) (b : Bindings) :
    propagate kb u (gs.map (Goal.mapVars f)) (b.mapVars f) =
      (propagate kb u gs b).map (Option.map (Bindings.mapVars f)) := by
  induction gs generalizing b with
  | nil => rfl
  | cons g gs ih =>
      rw [List.map_cons, propagate, propagate, hasUnbound_mapVars hf, Goal.arity_mapVars,
        Goal.negated_mapVars, Goal.predicate_mapVars, Goal.args_mapVars]
      split
      · exact ih b
      · rcases kb.factsFor g.predicate with _ | ⟨fact, _ | _⟩
        · exact ih b
        · rcases kb.rulesFor g.predicate with _ | _
          · dsimp only
            split
            · rfl
            · split
              · next hready =>
                rw [Bool.and_eq_true] at hready
                have hunify := u.unifyArgs_mapVars hf fact.args g.args b
                rw [Term.mapVarsAll_of_isGroundAll hready.1] at hunify
                rw [hunify]
                rcases u.unifyArgs fact.args g.args b with e | _ | c
                · rfl
                · rfl
                · exact ih c
              · exact ih b
          · exact ih b
        · exact ih b

/-- The renamed goals have the renamed selection. -/
theorem select_mapVars (kb : KnowledgeBase) (u : Unifier) (strategy : Strategy) (g : Goal)
    (gs : List Goal) (b : Bindings) :
    select kb u strategy (g.mapVars f) (gs.map (Goal.mapVars f)) (b.mapVars f) =
      (select kb u strategy g gs b).map (Option.map (Selection.mapVars f)) := by
  cases strategy with
  | baseline => rfl
  | constrained =>
      rw [select, select, ← List.map_cons, propagate_mapVars hf]
      rcases propagate kb u (g :: gs) b with e | _ | c
      · rfl
      · rfl
      · dsimp only [Except.map, Option.map]
        rw [selectIndex?_mapVars hf]
        cases selectIndex? kb (g :: gs) c with
        | none => rfl
        | some i =>
            dsimp only
            rw [pick_map]
            rfl

end Search

end Clausal
