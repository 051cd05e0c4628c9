import Clausal.Search.Machine
import Mathlib.Logic.Relation

/-!
# Runs of the search machine

A run leads from machine to machine until a step stops it. It has a report if it stops after some
number of steps, and none if it lasts longer than any number of steps.
-/

namespace Clausal.Search.Machine

variable {t : Task} {m m' : Machine} {r : Report} {next : Next} {n : Nat}

theorem run_of_running (h : m.step t = .running m') : m.run t = m'.run t := by
  rw [run, h]

theorem run_of_stopped (h : m.step t = .stopped r) : m.run t = some r := by
  rw [run, h]

/-- The second machine comes after the first one in a run. -/
abbrev Reaches (t : Task) : Machine → Machine → Prop :=
  Relation.ReflTransGen fun m m' => m.step t = .running m'

theorem run_of_reaches (h : Reaches t m m') : m.run t = m'.run t := by
  induction h with
  | refl => rfl
  | tail _ hstep ih => rw [ih, run_of_running hstep]

/-- A run comes to another machine, or stops with a report. -/
def Leads (t : Task) (m : Machine) : Next → Prop
  | .running m' => Reaches t m m'
  | .stopped r => ∃ m', Reaches t m m' ∧ m'.step t = .stopped r

theorem leads_of_step (h : m.step t = next) : m.Leads t next := by
  cases next with
  | running m' => exact .single h
  | stopped r => exact ⟨m, .refl, h⟩

theorem Leads.of_reaches (hnext : m'.Leads t next) (h : Reaches t m m') : m.Leads t next := by
  cases next with
  | running m'' => exact h.trans hnext
  | stopped r =>
      obtain ⟨m'', hreaches, hstep⟩ := hnext
      exact ⟨m'', h.trans hreaches, hstep⟩

theorem Leads.run_eq (h : m.Leads t (.stopped r)) : m.run t = some r := by
  obtain ⟨m', hreaches, hstep⟩ := h
  rw [run_of_reaches hreaches, run_of_stopped hstep]

/-! ## Counting steps -/

/-- The machine after a number of steps, if the run is not over before. -/
def after (t : Task) : Nat → Machine → Option Machine
  | 0, m => some m
  | n + 1, m =>
    match m.step t with
    | .stopped _ => none
    | .running m' => after t n m'

theorem after_succ_of_running (h : m.step t = .running m') (n : Nat) :
    m.after t (n + 1) = m'.after t n := by
  rw [after, h]

theorem after_succ_of_stopped (h : m.step t = .stopped r) (n : Nat) :
    m.after t (n + 1) = none := by
  rw [after, h]

theorem reaches_of_after (h : m.after t n = some m') : Reaches t m m' := by
  induction n generalizing m with
  | zero =>
      obtain rfl : m = m' := Option.some.inj h
      exact .refl
  | succ n ih =>
      rw [after] at h
      split at h
      · simp at h
      · next hstep => exact .head hstep (ih h)

/-- A run goes on for a number of steps. -/
def Lasts (t : Task) (n : Nat) (m : Machine) : Prop :=
  ∃ m', m.after t n = some m'

theorem lasts_zero (t : Task) (m : Machine) : m.Lasts t 0 := ⟨m, rfl⟩

theorem lasts_succ_iff (h : m.step t = .running m') : m.Lasts t (n + 1) ↔ m'.Lasts t n := by
  rw [Lasts, Lasts, after_succ_of_running h]

theorem not_lasts_succ (h : m.step t = .stopped r) : ¬ m.Lasts t (n + 1) := by
  rintro ⟨m', hm'⟩
  simp [after_succ_of_stopped h] at hm'

theorem Lasts.of_succ (h : m.Lasts t (n + 1)) : m.Lasts t n := by
  induction n generalizing m with
  | zero => exact lasts_zero t m
  | succ n ih =>
      cases hstep : m.step t with
      | stopped r => exact (not_lasts_succ hstep h).elim
      | running m' => exact (lasts_succ_iff hstep).mpr (ih ((lasts_succ_iff hstep).mp h))

theorem Lasts.of_le {k : Nat} (h : m.Lasts t n) (hk : k ≤ n) : m.Lasts t k := by
  induction hk with
  | refl => exact h
  | step _ ih => exact ih h.of_succ

theorem Lasts.of_reaches (hlasts : m'.Lasts t n) (h : Reaches t m m') : m.Lasts t n := by
  induction h using Relation.ReflTransGen.head_induction_on with
  | refl => exact hlasts
  | head hstep _ ih => exact ((lasts_succ_iff hstep).mpr ih).of_succ

theorem Lasts.exists_run_eq (h : ¬ m.Lasts t n) : ∃ r, m.run t = some r := by
  induction n generalizing m with
  | zero => exact (h (lasts_zero t m)).elim
  | succ n ih =>
      cases hstep : m.step t with
      | stopped r => exact ⟨r, run_of_stopped hstep⟩
      | running m' =>
          rw [run_of_running hstep]
          exact ih (mt (lasts_succ_iff hstep).mpr h)

theorem exists_not_lasts_of_run (h : m.run t = some r) : ∃ n, ¬ m.Lasts t n := by
  refine run.partial_correctness t (fun m _ => ∃ n, ¬ m.Lasts t n) (fun go ih m r h => ?_) m r h
  cases hstep : m.step t with
  | stopped r' => exact ⟨1, not_lasts_succ hstep⟩
  | running m' =>
      rw [hstep] at h
      obtain ⟨n, hn⟩ := ih m' r h
      exact ⟨n + 1, mt (lasts_succ_iff hstep).mp hn⟩

/-- A run has no report if and only if it never ends. -/
theorem run_eq_none_iff : m.run t = none ↔ ∀ n, m.Lasts t n := by
  constructor
  · intro hnone n
    refine Classical.byContradiction fun hn => ?_
    obtain ⟨r, hr⟩ := Lasts.exists_run_eq hn
    simp [hnone] at hr
  · intro hall
    cases hrun : m.run t with
    | none => rfl
    | some r =>
        obtain ⟨n, hn⟩ := exists_not_lasts_of_run hrun
        exact (hn (hall n)).elim

end Clausal.Search.Machine
