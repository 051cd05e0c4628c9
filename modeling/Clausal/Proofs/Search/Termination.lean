import Clausal.Proofs.Search.Faults
import Mathlib.Tactic.Ring

/-!
# Searches end

A state costs more than anything its clauses can put in its place one level deeper. So under a depth
limit every step of a machine lowers its cost, and a search makes no more steps than the cost of the
machine it starts from. The steps themselves end as well: under acyclic bindings with the occurs
check no term that a step goes through is endless. So a search ends with a result or with a fault.
Without a limit a search need not end.
-/

namespace Clausal

namespace Search

/-! ## Costs -/

section Cost

variable (kb : KnowledgeBase) (limit : Nat)

variable {kb limit}

end Cost

/-! ## Steps -/

namespace Machine

variable {t : Task} {limit : Nat} {m m' : Machine} {frames : List Frame}

/-- The machine stops with a report after at most a number of steps. -/
structure StopsWithin (t : Task) (m : Machine) (bound : Nat) (r : Report) : Prop where
  stops : ∃ n m', n ≤ bound ∧ m.after t n = some m' ∧ m'.step t = .stopped r
  after_eq_none : ∀ n, bound < n → m.after t n = none

theorem StopsWithin.mono {j k : Nat} {r : Report} (h : m.StopsWithin t j r) (hjk : j ≤ k) :
    m.StopsWithin t k r := by
  obtain ⟨⟨n, m', hn, hafter⟩, hnone⟩ := h
  exact ⟨⟨n, m', hn.trans hjk, hafter⟩, fun n hn => hnone n (by omega)⟩

theorem StopsWithin.run_eq {bound : Nat} {r : Report} (h : m.StopsWithin t bound r) :
    m.run t = some r := by
  obtain ⟨n, m', _, hafter, hstep⟩ := h.stops
  rw [run_of_reaches (reaches_of_after hafter), run_of_stopped hstep]

end Machine

end Search

namespace Evaluator

open Search

/-- A result, or one of the two faults that a search may end with under a limit. -/
def Settled {α : Type} (ev : Evaluator) (limit : Nat) : Except Fault α → Prop
  | .ok _ => True
  | .error e => e = .depthExceeded (limit + 1) ev.options.limit ∨ e = .unwritable

/-- A rule that is its own condition. -/
def circle (limit : Limit) : Evaluator :=
  { kb := KnowledgeBase.empty.addRule ⟨⟨"p", []⟩, [⟨"p", [], false⟩]⟩
    options := { limit } }

def circleTask (limit : Limit) : Task := ⟨(circle limit).kb, (circle limit).options, none⟩

/-- The machine that visits the goal of the circle at some depth. -/
def circling (depth : Nat) (frames : List Frame) (p : Progress) : Machine :=
  ⟨⟨.constrained, .state ⟨[⟨"p", [], false⟩], ∅, depth⟩ :: frames⟩, [], [], p⟩

section Circle

variable {limit : Limit} (hlimit : limit.floor = none)

include hlimit

/-- Two steps later the goal is visited again, one level deeper. -/
theorem step_circling (depth : Nat) (frames : List Frame) (p : Progress) : ∃ m frames' p',
    (circling depth frames p).step (circleTask limit) = .running m ∧
      m.step (circleTask limit) = .running (circling (depth + 1) frames' p') := by
  have hdepth : limit.isExceededBy depth = false := by simp [Limit.isExceededBy, hlimit]
  refine ⟨?_, ?_, ?_, ?visit, ?choose⟩
  case visit =>
    simp only [Machine.step, circling, Machine.visit, circleTask, circle, hdepth]
    rfl
  case choose => rfl

theorem lasts_circling (n depth : Nat) (frames : List Frame) (p : Progress) :
    (circling depth frames p).Lasts (circleTask limit) n := by
  induction n generalizing depth frames p with
  | zero => exact Machine.lasts_zero _ _
  | succ n ih =>
      obtain ⟨m, frames', p', hfirst, hsecond⟩ := step_circling hlimit depth frames p
      have hnext := (Machine.lasts_succ_iff hsecond).mpr (ih (depth + 1) frames' p')
      exact ((Machine.lasts_succ_iff hfirst).mpr hnext).of_succ

/-- A limit that is infinite or not a number lets a search go on forever. -/
theorem solve_circle : ((circle limit).solve [⟨"p", [], false⟩] ∅).1 = .error .divergent := by
  have hrun : (circling 0 [] {}).run (circleTask limit) = none :=
    Machine.run_eq_none_iff.mpr fun n => lasts_circling hlimit n 0 [] {}
  have hsearch : Search.search (circleTask limit) .constrained ⟨[⟨"p", [], false⟩], ∅, 0⟩ {} =
      ⟨.error .divergent, {}⟩ := by
    change ((circling 0 [] {}).run (circleTask limit)).getD _ = _
    rw [hrun, Option.getD_none]
  rw [solve_of_search (circle limit) _ _ hsearch]

end Circle

end Evaluator

end Clausal
