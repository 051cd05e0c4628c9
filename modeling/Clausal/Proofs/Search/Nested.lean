import Clausal.Proofs.Search.Reached

/-!
# A search inside another one

The search for a negated goal runs on top of the searches that wait for it. Step by step it does
what a search for one result does on its own; where that one stops, the search that waits goes on.
-/

namespace Clausal.Search

/-- A search that waits with its next state, the searches that wait for it, and the
results so far. -/
structure Outer where
  level : Level
  next : State
  suspended : List (Level × State)
  results : List Bindings

/-- The task of searching for one result. -/
def Task.first (t : Task) : Task := { t with wanted := some 1 }

/-- The machine with its searches on top of those that wait. -/
def Machine.within (o : Outer) (m : Machine) : Machine :=
  { m with suspended := m.suspended ++ (o.level, o.next) :: o.suspended, results := o.results }

namespace Outer

/-- How the search that waits goes on: a fault stops it as well, a proof of the negated goal takes
its next state away. -/
def resume (o : Outer) (r : Report) : Next :=
  match r.outcome with
  | .error _ => .stopped r
  | .ok [] =>
    let level := { o.level with frames := .state o.next :: o.level.frames }
    .running ⟨level, o.suspended, o.results, r.progress⟩
  | .ok (_ :: _) => .running ⟨o.level, o.suspended, o.results, r.progress⟩

def lift (o : Outer) : Next → Next
  | .running m => .running (m.within o)
  | .stopped r => o.resume r

/-- What the inner search leads to on its own and on top of others. A search for one result has none
while it runs. -/
structure Mirrors (o : Outer) (inner outer : Next) : Prop where
  eq_lift : outer = o.lift inner
  results : ∀ m, inner = .running m → m.results = []

end Outer

namespace Machine

variable {t : Task} (o : Outer) {m : Machine} (hm : m.results = [])

theorem mirrors_fail (e : Fault) (p : Progress) : o.Mirrors (fail e p) (fail e p) :=
  ⟨rfl, by simp [fail]⟩

include hm

theorem mirrors_running (m' : Machine) (h : m'.results = m.results) :
    o.Mirrors (.running m') (.running (m'.within o)) := by
  refine ⟨rfl, fun m'' heq => ?_⟩
  obtain rfl := Next.running.inj heq
  exact h.trans hm

theorem mirrors_proceed (frames : List Frame) (p : Progress) :
    o.Mirrors (m.proceed frames p) ((m.within o).proceed frames p) :=
  mirrors_running o hm _ rfl

theorem mirrors_prove (b : Bindings) (frames : List Frame) (p : Progress) :
    o.Mirrors (prove t.first m b frames p) (prove t (m.within o) b frames p) := by
  cases hsus : m.suspended with
  | nil =>
      have hinner : prove t.first m b frames p = .stopped ⟨.ok [b], p⟩ := by
        simp [prove, hsus, hm, isEnough, Task.first, finish]
      have houter : prove t (m.within o) b frames p =
          .running ⟨o.level, o.suspended, o.results, p⟩ := by
        simp [prove, within, hsus]
      rw [hinner, houter]
      exact ⟨rfl, by simp⟩
  | cons top rest =>
      obtain ⟨level, next⟩ := top
      have hinner : prove t.first m b frames p =
          .running { m with level, suspended := rest, progress := p } := by
        simp [prove, hsus]
      have houter : prove t (m.within o) b frames p =
          .running (within o { m with level, suspended := rest, progress := p }) := by
        simp [prove, within, hsus]
      rw [hinner, houter]
      exact mirrors_running o hm _ rfl

theorem mirrors_resolve (sel : Selection) (depth : Nat) (frames : List Frame) (p : Progress) :
    o.Mirrors (resolve t.first m sel depth frames p)
      (resolve t (m.within o) sel depth frames p) := by
  -- The number of results that are wanted plays no part here.
  change o.Mirrors (resolve t m sel depth frames p) _
  rw [resolve, resolve]
  rcases traceGoal t.options sel depth p with e | p'
  · exact mirrors_fail o e p
  · dsimp only
    split
    · exact mirrors_running o hm _ rfl
    · split
      · rcases Builtin.solve t.options.unifier sel.goal sel.bindings with e | _ | b
        · exact mirrors_fail o e p'
        · exact mirrors_proceed o hm frames p'
        · exact mirrors_proceed o hm _ p'
      · exact mirrors_proceed o hm _ p'

theorem mirrors_visit (s : State) (frames : List Frame) :
    o.Mirrors (visit t.first m s frames) (visit t (m.within o) s frames) := by
  have hfirst : t.first.options = t.options ∧ t.first.kb = t.kb := ⟨rfl, rfl⟩
  have hwithin : (m.within o).progress = m.progress ∧ (m.within o).level = m.level := ⟨rfl, rfl⟩
  rw [visit, visit, hfirst.1, hfirst.2, hwithin.1, hwithin.2]
  split
  · exact mirrors_fail o _ _
  · dsimp only
    split
    · exact mirrors_prove o hm s.bindings frames _
    · next g gs _ =>
      rcases select t.kb t.options.unifier m.level.strategy g gs s.bindings with e | _ | sel
      · exact mirrors_fail o e _
      · exact mirrors_proceed o hm frames _
      · exact mirrors_resolve o hm sel s.depth frames _

theorem mirrors_advance (left : Choices) (frames : List Frame) (attempt : Attempt) :
    o.Mirrors (m.advance left frames attempt) ((m.within o).advance left frames attempt) := by
  obtain ⟨e | _ | s, p⟩ := attempt
  · exact mirrors_fail o e p
  · exact mirrors_proceed o hm _ p
  · exact mirrors_proceed o hm _ p

theorem mirrors_choose (c : Choices) (frames : List Frame) :
    o.Mirrors (choose t.first m c frames) (choose t (m.within o) c frames) := by
  rw [choose, choose]
  split
  · exact mirrors_advance o hm _ frames _
  · exact mirrors_advance o hm _ frames _
  · exact mirrors_running o hm _ rfl

theorem mirrors_leave : o.Mirrors m.leave (m.within o).leave := by
  cases hsus : m.suspended with
  | nil =>
      have hinner : m.leave = .stopped ⟨.ok [], m.progress⟩ := by
        simp [leave, hsus, hm, finish]
      have houter : (m.within o).leave = o.resume ⟨.ok [], m.progress⟩ := by
        simp [leave, within, hsus, Outer.resume]
      rw [hinner, houter]
      exact ⟨rfl, by simp⟩
  | cons top rest =>
      obtain ⟨level, s⟩ := top
      let level' : Level := { level with frames := .state s :: level.frames }
      have hinner : m.leave = .running { m with level := level', suspended := rest } := by
        simp [leave, hsus, level']
      have houter : (m.within o).leave =
          .running (within o { m with level := level', suspended := rest }) := by
        simp [leave, within, hsus, level']
      rw [hinner, houter]
      exact mirrors_running o hm _ rfl

theorem mirrors_step : o.Mirrors (m.step t.first) ((m.within o).step t) := by
  have hwithin : (m.within o).level = m.level := rfl
  rw [step, step, hwithin]
  split
  · exact mirrors_leave o hm
  · exact mirrors_visit o hm _ _
  · exact mirrors_choose o hm _ _

/-- Where the inner search stops on its own, the machine goes on with the search that waits, or
stops with the same fault. -/
theorem leads_within {r : Report} (h : m.run t.first = some r) :
    (m.within o).Leads t (o.resume r) := by
  refine run.partial_correctness t.first
    (fun m r => m.results = [] → (m.within o).Leads t (o.resume r))
    (fun go ih m r h hm => ?_) m r h hm
  have hstep : o.Mirrors (m.step t.first) ((m.within o).step t) := mirrors_step o hm
  cases hinner : m.step t.first with
  | stopped r' =>
      rw [hinner] at h hstep
      obtain rfl := Option.some.inj h
      exact leads_of_step hstep.eq_lift
  | running m₁ =>
      have hresults := hstep.results m₁ hinner
      rw [hinner] at h hstep
      exact (ih m₁ r h hresults).of_reaches (.single hstep.eq_lift)

/-- Where the inner search goes on, so does the machine. -/
theorem lasts_within {n : Nat} (h : m.Lasts t.first n) : (m.within o).Lasts t n := by
  induction n generalizing m with
  | zero => exact lasts_zero t _
  | succ n ih =>
      have hstep : o.Mirrors (m.step t.first) ((m.within o).step t) := mirrors_step o hm
      cases hinner : m.step t.first with
      | stopped r => exact (not_lasts_succ hinner h).elim
      | running m₁ =>
          have hresults := hstep.results m₁ hinner
          rw [hinner] at hstep
          exact (lasts_succ_iff hstep.eq_lift).mpr (ih hresults ((lasts_succ_iff hinner).mp h))

end Machine

namespace Machine

variable {t : Task} {m m₁ : Machine} {s : State} {sel : Selection} {frames : List Frame}
  (htop : m.level.frames = .state s :: frames) (hsel : Selects t m.level.strategy s sel)
  (hneg : sel.goal.negated = true) (h : m.step t = .running m₁)

include htop hsel hneg h

/-- The step that starts the search for a negated goal. -/
theorem eq_within_of_negated :
    m₁ = within
      ⟨⟨m.level.strategy, frames⟩, ⟨sel.rest, sel.bindings, s.depth + 1⟩, m.suspended, m.results⟩
      (.start t.options.strategy ⟨[sel.goal.positive], sel.bindings, s.depth + 1⟩ m₁.progress) := by
  obtain ⟨g, gs, hgoals, hselect⟩ := hsel
  rw [step, htop] at h
  dsimp only at h
  rw [visit, hgoals] at h
  split at h
  · simp [fail] at h
  · dsimp only at h
    rw [hselect] at h
    dsimp only at h
    rw [resolve] at h
    split at h
    · simp [fail] at h
    · rw [if_pos hneg, negate] at h
      obtain rfl := Next.running.inj h
      rfl

/-- A negated goal goes by the search for the goal itself: its fault ends the run, otherwise the
state has a successor if there is no result, and none if there is one. -/
theorem run_of_negated :
    let inner := search t.first t.options.strategy
      ⟨[sel.goal.positive], sel.bindings, s.depth + 1⟩ m₁.progress
    (∀ e p, inner.outcome = .error e →
      ((m₁.run t).getD ⟨.error .divergent, p⟩).outcome = .error e) ∧
    (inner.outcome = .ok [] → Reaches t m₁ { m.withFrames
        (.state ⟨sel.rest, sel.bindings, s.depth + 1⟩ :: frames) with progress :=
        inner.progress }) ∧
    ∀ r rs, inner.outcome = .ok (r :: rs) →
      Reaches t m₁ { m.withFrames frames with progress := inner.progress } := by
  intro inner
  let o : Outer := ⟨⟨m.level.strategy, frames⟩, ⟨sel.rest, sel.bindings, s.depth + 1⟩, m.suspended,
    m.results⟩
  let m₂ : Machine := .start t.options.strategy ⟨[sel.goal.positive], sel.bindings, s.depth + 1⟩
    m₁.progress
  have hwithin : m₁ = m₂.within o := eq_within_of_negated htop hsel hneg h
  cases hrun : m₂.run t.first with
  | none =>
      have hinner : inner = ⟨.error .divergent, m₁.progress⟩ := congrArg (Option.getD · _) hrun
      have hnone : m₁.run t = none := by
        rw [hwithin]
        exact run_eq_none_iff.mpr fun n => lasts_within o rfl (run_eq_none_iff.mp hrun n)
      rw [hinner, hnone]
      simp
  | some r =>
      have hinner : inner = r := congrArg (Option.getD · _) hrun
      have hleads : m₁.Leads t (o.resume r) := hwithin ▸ leads_within o rfl hrun
      rw [hinner]
      refine ⟨fun e p he => ?_, fun hnil => ?_, fun b bs hcons => ?_⟩
      · rw [Outer.resume, he] at hleads
        rw [hleads.run_eq]
        exact he
      · rw [Outer.resume, hnil] at hleads
        exact hleads
      · rw [Outer.resume, hcons] at hleads
        exact hleads

end Machine

end Clausal.Search
