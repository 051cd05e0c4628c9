import Clausal.Proofs.Search.Congruence
import Clausal.Proofs.Search.Soundness

/-!
# The configured strategy

A search by a given strategy turns to the strategy of its evaluator only for negated goals. So
without negation the configured strategy has no effect on it, neither on the results nor on
the counts. With negation it has one: a negated goal that one strategy proves may have no
proof by the other.
-/

namespace Clausal

namespace Search

variable {t : Task} {strategy : Strategy} {s s' : State} {p : Progress}

theorem Successor.positive (h : Successor t strategy s p s') (hkb : t.kb.IsPositive)
    (hs : ∀ g ∈ s.goals, g.negated = false) : ∀ g ∈ s'.goals, g.negated = false :=
  h.forall_goals (fun _ _ hg => hg) hkb.body hs

/-- The task with another configured strategy. -/
def Task.withStrategy (t : Task) (configured : Strategy) : Task :=
  { t with options := { t.options with strategy := configured } }

/-- A walk through states without negated goals never looks at the configured strategy. -/
theorem walk_withStrategy (hkb : t.kb.IsPositive) (configured : Strategy) (n : Nat)
    (wanted : Option Nat) (f : Found) (hs : ∀ g ∈ s.goals, g.negated = false) :
    walk (t.withStrategy configured) n strategy wanted s f = walk t n strategy wanted s f := by
  have hagree : AgreeOn (fun g => g.negated = false) t (t.withStrategy configured) :=
    { options := rfl
      clauses := fun _ _ => ⟨rfl, rfl⟩
      body := hkb.body
      copy := fun _ _ hg => hg
      inner := fun g hg hneg => by simp [hg] at hneg }
  exact hagree.walk_eq n strategy wanted s f hs

end Search

namespace Evaluator

open Search

def withStrategy (ev : Evaluator) (configured : Strategy) : Evaluator :=
  { ev with options := { ev.options with strategy := configured } }

/-- Without negation, a search by a given strategy ends the same way, with the same results or fault
and the same progress, whatever strategy is configured. -/
theorem solveGoals_withStrategy {ev : Evaluator} (hkb : ev.kb.IsPositive) {goals : List Goal}
    (hgoals : ∀ g ∈ goals, g.negated = false) (configured strategy : Strategy) (b : Bindings)
    (depth : Nat) :
    (ev.withStrategy configured).solveGoals strategy goals b depth =
      ((ev.solveGoals strategy goals b depth).1,
        (ev.solveGoals strategy goals b depth).2.withStrategy configured) := by
  let t : Task := ⟨ev.kb, ev.options, none⟩
  have hsearch : Search.search (t.withStrategy configured) strategy ⟨goals, b, depth⟩ ev.progress =
      Search.search t strategy ⟨goals, b, depth⟩ ev.progress := by
    refine search_congr rfl rfl fun n => ?_
    exact walk_withStrategy hkb configured n none ⟨[], ev.progress⟩ hgoals
  let answer (r : Report) : Answer (List Bindings) :=
    (r.outcome, { ev.withStrategy configured with progress := r.progress })
  exact congrArg answer hsearch

theorem solveGoals_withStrategy_pricing :
    pricing.kb.IsPositive ∧ (∀ g ∈ pricingQuery, g.negated = false) ∧
      (∃ r, ((pricing.withStrategy .baseline).solveGoals .constrained pricingQuery ∅ 1).1 =
        .ok [r]) ∧
      (pricing.withStrategy .baseline).solveGoals .constrained pricingQuery ∅ 1 =
        ((pricing.solveGoals .constrained pricingQuery ∅ 1).1,
          (pricing.solveGoals .constrained pricingQuery ∅ 1).2.withStrategy .baseline) := by
  have hfound : ∃ r, ((pricing.withStrategy .baseline).solveGoals .constrained pricingQuery ∅ 1).1 =
      .ok [r] := by
    rw [solveGoals, Evaluator.search, search_eq_walk rfl]
    exact ⟨_, rfl⟩
  exact ⟨by decide, by decide, hfound, solveGoals_withStrategy (by decide) (by decide) _ _ _ _⟩

/-- A rule whose first goal needs the value that its second goal gives. -/
def delaying : Evaluator :=
  { kb := KnowledgeBase.empty.addRule ⟨⟨"small", []⟩,
      [⟨"<", [.var "X", .float 3.5], false⟩, ⟨"=", [.var "X", .float 2.5], false⟩]⟩
    options := { limit := .whole 5 } }

/-- From left to right the rule has no proof, but the search for the negated goal finds one if the
constrained strategy is configured. -/
theorem solveGoals_negated_differs :
    ((delaying.withStrategy .baseline).solveGoals .baseline [⟨"small", [], true⟩] ∅ 0).1 = .ok [∅] ∧
      ((delaying.withStrategy .constrained).solveGoals .baseline [⟨"small", [], true⟩] ∅ 0).1 =
        .ok [] := by
  constructor
  · rw [solveGoals, Evaluator.search, search_eq_walk rfl]
    rfl
  · rw [solveGoals, Evaluator.search, search_eq_walk rfl]
    rfl

end Evaluator

end Clausal
