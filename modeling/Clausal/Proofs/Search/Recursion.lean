import Clausal.Proofs.Search.Runs
import Clausal.Proofs.Search.StepFaults
import Clausal.Search.Evaluator
import Mathlib.Order.Filter.AtTopBot.Basic

/-!
# The machine and the recursion agree

A run of the machine with a state on top of its stack is the recursive walk through that state,
followed by a run of what lies below. An inner search for a negated goal starts without results and
stops at its first one, so while it goes on it has none.

Under a depth limit the levels of the walk are those that the limit leaves. Without a limit the walk
is given more and more levels: it settles if the run ends, and a run that never ends is one for
which no number of levels is enough.
-/

namespace Clausal.Search

/-! ## Levels -/

/-- So many levels are left at a depth. Without a limit there are as many as one likes. -/
def Task.Leaves (t : Task) (depth n : Nat) : Prop :=
  ∀ k, t.options.limit.floor = some k → n = k + 1 - depth

theorem Task.Leaves.exceeded {t : Task} {depth : Nat} (h : t.Leaves depth 0) :
    t.options.limit.floor = none ∨ t.options.limit.isExceededBy depth = true := by
  cases hfloor : t.options.limit.floor with
  | none => exact .inl rfl
  | some k =>
      have := h k hfloor
      refine .inr ?_
      simp only [Limit.isExceededBy, hfloor, decide_eq_true_eq]
      omega

theorem Task.Leaves.not_exceeded {t : Task} {depth n i : Nat} (h : t.Leaves depth n) (hi : i < n) :
    t.options.limit.isExceededBy (depth + i) = false := by
  cases hfloor : t.options.limit.floor with
  | none => simp [Limit.isExceededBy, hfloor]
  | some k =>
      have := h k hfloor
      simp only [Limit.isExceededBy, hfloor, decide_eq_false_iff_not]
      omega

theorem Task.Leaves.deeper {t : Task} {depth n : Nat} (h : t.Leaves depth (n + 1)) :
    t.Leaves (depth + 1) n := by
  intro k hk
  have := h k hk
  omega

namespace Machine

/-! ## Machines and what their running search has found -/

/-- How many results the running search wants: an inner one stops at the first. -/
def wanted (t : Task) (m : Machine) : Option Nat :=
  match m.suspended with
  | [] => t.wanted
  | _ :: _ => some 1

/-- The machine with another stack, after its running search has found something. Results of an
inner search are not kept. -/
def absorb (m : Machine) (frames : List Frame) (f : Found) : Machine :=
  match m.suspended with
  | [] => { m.withFrames frames with results := f.results, progress := f.progress }
  | _ :: _ => { m.withFrames frames with progress := f.progress }

/-- What comes after a walk, with the stack that is left. -/
def resume (m : Machine) (frames : List Frame) : Walk → Next
  | .failed e p => .stopped ⟨.error e, p⟩
  | .more f => .running (m.absorb frames f)
  | .enough f =>
    match m.suspended with
    | [] => .stopped ⟨.ok f.results.reverse, f.progress⟩
    | (level, _) :: rest => .running { m with level, suspended := rest, progress := f.progress }

section Absorb

variable (m : Machine) (frames : List Frame) (f : Found)

@[simp] theorem level_absorb : (m.absorb frames f).level = ⟨m.level.strategy, frames⟩ := by
  rw [absorb]
  split <;> rfl

@[simp] theorem progress_absorb : (m.absorb frames f).progress = f.progress := by
  rw [absorb]
  split <;> rfl

theorem proceed_absorb (frames' : List Frame) (p : Progress) :
    (m.absorb frames f).proceed frames' p =
      .running (m.absorb frames' { f with progress := p }) := by
  simp only [absorb, proceed]
  cases m.suspended <;> rfl

theorem withFrames_absorb (frames' : List Frame) :
    (m.absorb frames f).withFrames frames' = m.absorb frames' f := by
  simp only [absorb]
  cases m.suspended <;> rfl

end Absorb

/-! ## The simulation -/

/-- A run leads to what comes after a walk; or there is no limit, the walk has too few levels, and
the run takes as many steps. -/
def Carries (t : Task) (n : Nat) (m₀ m : Machine) (frames : List Frame) (w : Walk) : Prop :=
  m₀.Leads t (m.resume frames w) ∨
    t.options.limit.floor = none ∧ (∃ p, w = .failed .divergent p) ∧ m₀.Lasts t n

section Simulation

variable {t : Task} {m₀ m₁ m : Machine} {frames : List Frame} {f : Found} {n : Nat} {w : Walk}

theorem Carries.of_reaches (hw : Carries t n m₁ m frames w) (h : Reaches t m₀ m₁) :
    Carries t n m₀ m frames w :=
  hw.imp (fun hleads => hleads.of_reaches h) fun hlasts =>
    ⟨hlasts.1, hlasts.2.1, hlasts.2.2.of_reaches h⟩

theorem Carries.of_running (hw : Carries t n m₁ m frames w) (h : m₀.step t = .running m₁) :
    Carries t (n + 1) m₀ m frames w :=
  hw.imp (fun hleads => hleads.of_reaches (.single h)) fun hlasts =>
    ⟨hlasts.1, hlasts.2.1, (lasts_succ_iff h).mpr hlasts.2.2⟩

theorem Carries.leads (hw : Carries t n m₀ m frames w) (h : ∀ p, w ≠ .failed .divergent p) :
    m₀.Leads t (m.resume frames w) := by
  rcases hw with hleads | ⟨_, ⟨p, hfailed⟩, _⟩
  · exact hleads
  · exact (h p hfailed).elim

/-- Running a state that lies on a stack is walking through it and going on. -/
def Simulates (t : Task) (n : Nat) (s : State) : Prop :=
  ∀ (m : Machine) (frames : List Frame) (f : Found), (m.suspended ≠ [] → f.results = []) →
    Carries t n (m.absorb (.state s :: frames) f) m frames
      (walk t n m.level.strategy (m.wanted t) s f)

theorem results_of_more (hf : m.suspended ≠ [] → f.results = []) {s : State} {f' : Found}
    (h : walk t n m.level.strategy (m.wanted t) s f = .more f') :
    m.suspended ≠ [] → f'.results = [] := by
  intro hsus
  cases hm : m.suspended with
  | nil => exact (hsus hm).elim
  | cons top rest =>
      rw [wanted, hm] at h
      exact results_of_walk_more (hf hsus) h

/-- Trying one clause, and then those that are left. -/
theorem carries_advance {c : Choices} (left : Choices)
    {attempt : Progress → Attempt} {rest : List (Progress → Attempt)}
    (hf : m.suspended ≠ [] → f.results = [])
    (hstep : (m.absorb (.choices c :: frames) f).step t =
      (m.absorb (.choices c :: frames) f).advance left frames (attempt f.progress))
    (hattempt : ∀ s p, attempt f.progress = (.ok (some s), p) → Simulates t n s)
    (hrest : ∀ f' : Found, (m.suspended ≠ [] → f'.results = []) →
      Carries t n (m.absorb (.choices left :: frames) f') m frames
        (walkAttempts (walk t n m.level.strategy (m.wanted t)) rest f')) :
    Carries t n (m.absorb (.choices c :: frames) f) m frames
      (walkAttempts (walk t n m.level.strategy (m.wanted t)) (attempt :: rest) f) := by
  rw [walkAttempts]
  rcases hrun : attempt f.progress with ⟨e | _ | s, p⟩
  · rw [hrun, advance] at hstep
    exact .inl (leads_of_step hstep)
  · rw [hrun, advance, proceed_absorb] at hstep
    exact (hrest { f with progress := p } hf).of_reaches (.single hstep)
  · rw [hrun, advance, proceed_absorb] at hstep
    have hs := hattempt s p hrun m (.choices left :: frames) { f with progress := p } hf
    refine Carries.of_reaches ?_ (.single hstep)
    dsimp only
    generalize hwalk : walk t n m.level.strategy (m.wanted t) s { f with progress := p } = w at hs ⊢
    cases w with
    | more f' =>
        refine Carries.of_reaches (hrest f' ?_) (hs.leads (by simp))
        exact results_of_more (f := { f with progress := p }) hf hwalk
    | enough f' => exact hs
    | failed e q => exact hs

theorem carries_choices {sel : Selection} {depth : Nat}
    (hsim : ∀ s : State, s.depth = depth + 1 → Simulates t n s) (facts : List Fact)
    (rules : List Rule) (hf : m.suspended ≠ [] → f.results = []) :
    Carries t n (m.absorb (.choices ⟨sel, depth, facts, rules⟩ :: frames) f) m frames
      (walkAttempts (walk t n m.level.strategy (m.wanted t))
        (facts.map (tryFact t.options sel depth) ++ rules.map (tryRule t.options sel depth))
        f) := by
  induction facts generalizing f with
  | cons fact facts ih =>
      refine carries_advance ⟨sel, depth, facts, rules⟩ hf ?_ ?_ fun f' hf' => ih hf'
      · simp [step, choose]
      · intro s p hs
        exact hsim s (depth_of_tryFact (by rw [hs]))
  | nil =>
      induction rules generalizing f with
      | cons rule rules ih =>
          refine carries_advance ⟨sel, depth, [], rules⟩ hf ?_ ?_ fun f' hf' => ih hf'
          · simp [step, choose]
          · intro s p hs
            exact hsim s (depth_of_tryRule (by rw [hs]))
      | nil =>
          refine .inl (leads_of_step ?_)
          simp [step, choose, withFrames_absorb, walkAttempts, resume]

theorem leads_of_prove {s : State} {p : Progress}
    (hstep : (m.absorb (.state s :: frames) f).step t =
      prove t (m.absorb (.state s :: frames) f) s.bindings frames p)
    (hf : m.suspended ≠ [] → f.results = []) :
    (m.absorb (.state s :: frames) f).Leads t
      (m.resume frames ({ f with progress := p }.add (m.wanted t) s.bindings)) := by
  refine leads_of_step ?_
  rw [hstep]
  cases hsus : m.suspended with
  | nil =>
      rw [Found.add, wanted, hsus]
      dsimp only
      split
      · next henough => simp [resume, prove, absorb, hsus, henough, finish, withFrames]
      · next henough => simp [resume, prove, absorb, hsus, henough, withFrames]
  | cons top rest =>
      obtain ⟨level, next⟩ := top
      rw [Found.add, wanted, hsus, hf (by simp [hsus])]
      rw [if_pos (by simp [isEnough]), resume, hsus]
      simp [prove, absorb, hsus, withFrames]

/-- A negated goal: the inner search lies on top, and the outer one waits with its next state. -/
theorem carries_negate {s : State} {sel : Selection} {p : Progress}
    (hstep : (m.absorb (.state s :: frames) f).step t =
      negate t (m.absorb (.state s :: frames) f) sel s.depth frames p)
    (hsim : ∀ s' : State, s'.depth = s.depth + 1 → Simulates t n s')
    (hf : m.suspended ≠ [] → f.results = []) :
    Carries t (n + 1) (m.absorb (.state s :: frames) f) m frames
      (match walk t n t.options.strategy (some 1)
        ⟨[sel.goal.positive], sel.bindings, s.depth + 1⟩ ⟨[], p⟩ with
      | .failed e p => .failed e p
      | .enough inside => .more { f with progress := inside.progress }
      | .more inside => walk t n m.level.strategy (m.wanted t)
        ⟨sel.rest, sel.bindings, s.depth + 1⟩ { f with progress := inside.progress }) := by
  let waiting : Level × State := (⟨m.level.strategy, frames⟩, ⟨sel.rest, sel.bindings, s.depth + 1⟩)
  let m' : Machine := { m.absorb frames f with
    level := ⟨t.options.strategy, []⟩
    suspended := waiting :: m.suspended }
  have hinner : (m.absorb (.state s :: frames) f).step t = .running
      (m'.absorb [.state ⟨[sel.goal.positive], sel.bindings, s.depth + 1⟩] ⟨[], p⟩) := by
    rw [hstep]
    cases hsus : m.suspended <;> simp [m', waiting, negate, absorb, hsus, withFrames]
  refine Carries.of_running ?_ hinner
  have hwalk := hsim ⟨[sel.goal.positive], sel.bindings, s.depth + 1⟩ rfl m' [] ⟨[], p⟩ fun _ => rfl
  change Carries t n _ m' [] (walk t n t.options.strategy (some 1) _ _) at hwalk
  generalize walk t n t.options.strategy (some 1) _ _ = w at hwalk ⊢
  cases w with
  | failed e q => exact hwalk
  | enough inside =>
      have hback : m'.resume [] (.enough inside) =
          .running (m.absorb frames { f with progress := inside.progress }) := by
        cases hsus : m.suspended <;> simp [m', waiting, resume, absorb, hsus, withFrames]
      have hleads := hwalk.leads (by simp)
      rw [hback] at hleads
      exact .inl hleads
  | more inside =>
      have hleave : (m'.absorb [] inside).step t = .running
          (m.absorb (.state waiting.2 :: frames) { f with progress := inside.progress }) := by
        cases hsus : m.suspended <;> simp [m', waiting, step, leave, absorb, hsus, withFrames]
      refine Carries.of_reaches ?_ (Relation.ReflTransGen.tail (hwalk.leads (by simp)) hleave)
      exact hsim waiting.2 rfl m frames { f with progress := inside.progress } hf

/-- Once the goal of a state is selected, machine and recursion make the same case distinction. -/
theorem carries_resolve {s : State} {sel : Selection} {p : Progress}
    (hstep : (m.absorb (.state s :: frames) f).step t =
      resolve t (m.absorb (.state s :: frames) f) sel s.depth frames p)
    (hsim : ∀ s' : State, s'.depth = s.depth + 1 → Simulates t n s')
    (hf : m.suspended ≠ [] → f.results = []) :
    Carries t (n + 1) (m.absorb (.state s :: frames) f) m frames
      (walkSelected t n m.level.strategy (m.wanted t) s.depth f sel p) := by
  rw [resolve] at hstep
  rw [walkSelected]
  rcases htrace : traceGoal t.options sel s.depth p with e | p'
  · rw [htrace] at hstep
    exact .inl (leads_of_step hstep)
  · rw [htrace] at hstep
    dsimp only at hstep ⊢
    by_cases hneg : sel.goal.negated = true
    · rw [if_pos hneg] at hstep ⊢
      exact carries_negate hstep hsim hf
    · rw [if_neg hneg] at hstep ⊢
      by_cases hbuiltin : isBuiltin sel.goal.predicate = true
      · rw [if_pos hbuiltin] at hstep ⊢
        rcases hsolve : Builtin.solve t.options.unifier sel.goal sel.bindings with e | _ | b
        · rw [hsolve] at hstep
          exact .inl (leads_of_step hstep)
        · rw [hsolve] at hstep
          dsimp only at hstep
          rw [proceed_absorb] at hstep
          exact .inl (leads_of_step hstep)
        · rw [hsolve] at hstep
          dsimp only at hstep
          rw [proceed_absorb] at hstep
          exact (hsim _ rfl m frames { f with progress := p' } hf).of_running hstep
      · rw [if_neg hbuiltin] at hstep ⊢
        rw [proceed_absorb] at hstep
        exact (carries_choices (f := { f with progress := p' }) hsim _ _ hf).of_running hstep

theorem simulates {t : Task} {n : Nat} {s : State} (hn : t.Leaves s.depth n) : Simulates t n s := by
  induction n generalizing s with
  | zero =>
      intro m frames f hf
      rw [walk]
      rcases hn.exceeded with hfloor | hdeep
      · refine .inr ⟨hfloor, ⟨f.progress, ?_⟩, lasts_zero _ _⟩
        rw [tooDeep, hfloor]
      · refine .inl (leads_of_step ?_)
        simp [step, visit, hdeep, fail, resume]
  | succ n ih =>
      intro m frames f hf
      have hsim : ∀ s' : State, s'.depth = s.depth + 1 → Simulates t n s' := fun s' hs' =>
        ih (hs' ▸ hn.deeper)
      have hvisit : (m.absorb (.state s :: frames) f).step t =
          visit t (m.absorb (.state s :: frames) f) s frames := by
        simp [step]
      have hlimit : t.options.limit.isExceededBy s.depth = false := hn.not_exceeded n.succ_pos
      rw [visit, hlimit, if_neg Bool.false_ne_true, progress_absorb, level_absorb] at hvisit
      cases hgoals : s.goals with
      | nil =>
          rw [hgoals] at hvisit
          rw [walk_done hgoals]
          exact .inl (leads_of_prove hvisit hf)
      | cons g gs =>
          rw [hgoals] at hvisit
          dsimp only at hvisit
          rcases hselect : select t.kb t.options.unifier m.level.strategy g gs s.bindings
            with e | _ | sel
          · rw [hselect] at hvisit
            rw [walk_unselected hgoals hselect]
            exact .inl (leads_of_step hvisit)
          · rw [hselect] at hvisit
            dsimp only at hvisit
            rw [proceed_absorb] at hvisit
            rw [walk_pruned hgoals hselect]
            exact .inl (leads_of_step hvisit)
          · rw [hselect] at hvisit
            rw [walk_selected hgoals hselect]
            exact carries_resolve hvisit hsim hf

end Simulation

theorem outcome_of_run {t : Task} {m : Machine} {r : Report} (h : m.run t = some r) :
    r.outcome ≠ .error .divergent := by
  refine run.partial_correctness t (fun _ r => r.outcome ≠ .error .divergent)
    (fun go ih m r h => ?_) m r h
  have hends := ends_step t m
  cases hstep : m.step t with
  | stopped r' =>
      rw [hstep] at h hends
      exact Option.some.inj h ▸ hends
  | running m' =>
      rw [hstep] at h
      exact ih m' r h

/-- The run of a search leads to the report on the walk, or lasts. -/
theorem leads_or_lasts {t : Task} {n : Nat} {s : State} (hn : t.Leaves s.depth n)
    (strategy : Strategy) (p : Progress) :
    (start strategy s p).Leads t (.stopped (walk t n strategy t.wanted s ⟨[], p⟩).report) ∨
      t.options.limit.floor = none ∧
      (∃ q, walk t n strategy t.wanted s ⟨[], p⟩ = .failed .divergent q) ∧
        (start strategy s p).Lasts t n := by
  have hcarries := simulates hn (.start strategy s p) [] ⟨[], p⟩ fun h => (h rfl).elim
  change Carries t n (start strategy s p) _ [] (walk t n strategy t.wanted s ⟨[], p⟩) at hcarries
  refine hcarries.imp_left fun hleads => ?_
  generalize walk t n strategy t.wanted s ⟨[], p⟩ = w at hleads ⊢
  cases w with
  | more f => exact Leads.of_reaches (leads_of_step rfl) hleads
  | enough f => exact hleads
  | failed e q => exact hleads

end Machine

/-- The numbers of levels that a limit leaves at a depth: one number, or all that
are large enough. -/
def levels (l : Limit) (depth : Nat) : Filter Nat :=
  l.floor.elim .atTop fun k => pure (k + 1 - depth)

instance neBot_levels (l : Limit) (depth : Nat) : (levels l depth).NeBot := by
  rw [levels]
  cases l.floor with
  | none => exact Filter.atTop_neBot
  | some k => exact Filter.pure_neBot

theorem levels_eventually_leaves {t : Task} {depth : Nat} :
    ∀ᶠ n in levels t.options.limit depth, t.Leaves depth n := by
  rw [levels]
  cases hfloor : t.options.limit.floor with
  | none => exact .of_forall fun n k hk => by simp [hfloor] at hk
  | some k =>
      refine Filter.eventually_pure.mpr fun k' hk' => ?_
      rw [Option.some.inj (hfloor.symm.trans hk')]

theorem levels_eventually_lt {l : Limit} {depth n : Nat} (h : l.isExceededBy (depth + n) = false) :
    ∀ᶠ n' in levels l depth, n < n' := by
  rw [levels]
  cases hfloor : l.floor with
  | none => exact Filter.eventually_gt_atTop n
  | some k =>
      refine Filter.eventually_pure.mpr ?_
      simp only [Limit.isExceededBy, hfloor, decide_eq_false_iff_not] at h
      omega

/-- The search with a stack makes the report on the walk; or there is no limit and no number of
levels is enough. -/
theorem search_cases (t : Task) (strategy : Strategy) (s : State) (p : Progress) :
    ((search t strategy s p).outcome ≠ .error .divergent ∧
      ∀ᶠ n in levels t.options.limit s.depth,
        search t strategy s p = (walk t n strategy t.wanted s ⟨[], p⟩).report) ∨
    t.options.limit.floor = none ∧ search t strategy s p = ⟨.error .divergent, p⟩ ∧
      ∀ n, ∃ q, walk t n strategy t.wanted s ⟨[], p⟩ = .failed .divergent q := by
  cases hfloor : t.options.limit.floor with
  | some k =>
      have hleaves : t.Leaves s.depth (k + 1 - s.depth) := fun k' hk' => by
        rw [Option.some.inj (hfloor.symm.trans hk')]
      rcases Machine.leads_or_lasts hleaves strategy p with hleads | ⟨hnone, _⟩
      · refine .inl ?_
        rw [levels, hfloor, search, hleads.run_eq]
        exact ⟨Machine.outcome_of_run hleads.run_eq, Filter.eventually_pure.mpr rfl⟩
      · simp [hfloor] at hnone
  | none =>
      have hleaves : ∀ n, t.Leaves s.depth n := fun n k hk => by simp [hfloor] at hk
      cases hrun : (Machine.start strategy s p).run t with
      | none =>
          refine .inr ⟨rfl, by rw [search, hrun]; rfl, fun n => ?_⟩
          rcases Machine.leads_or_lasts (hleaves n) strategy p with hleads | ⟨_, hwalk, _⟩
          · simp [hleads.run_eq] at hrun
          · exact hwalk
      | some r =>
          obtain ⟨k, hk⟩ := Machine.exists_not_lasts_of_run hrun
          refine .inl ?_
          rw [levels, hfloor, search, hrun]
          refine ⟨Machine.outcome_of_run hrun, (Filter.eventually_ge_atTop k).mono fun n hn => ?_⟩
          rcases Machine.leads_or_lasts (hleaves n) strategy p with hleads | ⟨_, _, hlasts⟩
          · exact Option.some.inj (hrun.symm.trans hleads.run_eq)
          · exact (hk (hlasts.of_le hn)).elim

/-- The result of a search is that of the walk. -/
theorem outcome_eventually_eq (t : Task) (strategy : Strategy) (s : State) (p : Progress) :
    ∀ᶠ n in levels t.options.limit s.depth, (search t strategy s p).outcome =
      (walk t n strategy t.wanted s ⟨[], p⟩).report.outcome := by
  rcases search_cases t strategy s p with ⟨_, heq⟩ | ⟨_, heq, hwalk⟩
  · exact heq.mono fun n hn => by rw [hn]
  · refine .of_forall fun n => ?_
    obtain ⟨q, hq⟩ := hwalk n
    rw [heq, hq, Walk.report]

/-- What holds of the report on a walk that ends holds of the report on the search. -/
theorem search_of_walk {P : Report → Prop} {t : Task} {strategy : Strategy} {s : State}
    {p : Progress} (hends : ∀ q, ¬ P ⟨.error .divergent, q⟩)
    (hwalk : ∀ᶠ n in levels t.options.limit s.depth,
      P (walk t n strategy t.wanted s ⟨[], p⟩).report) :
    P (search t strategy s p) := by
  rcases search_cases t strategy s p with ⟨_, heq⟩ | ⟨_, _, hdiv⟩
  · obtain ⟨n, hn, hsearch⟩ := (hwalk.and heq).exists
    rwa [hsearch]
  · obtain ⟨n, hn⟩ := hwalk.exists
    obtain ⟨q, hq⟩ := hdiv n
    rw [hq] at hn
    exact (hends q hn).elim

/-- Under a limit the search is the walk with the levels that the limit leaves. -/
theorem search_eq_walk {t : Task} {k : Nat} (hfloor : t.options.limit.floor = some k)
    (strategy : Strategy) (s : State) (p : Progress) :
    search t strategy s p = (walk t (k + 1 - s.depth) strategy t.wanted s ⟨[], p⟩).report := by
  rcases search_cases t strategy s p with ⟨_, heq⟩ | ⟨hnone, _⟩
  · rw [levels, hfloor] at heq
    exact Filter.eventually_pure.mp heq
  · simp [hfloor] at hnone

/-- The search in a form that can be evaluated where there is a limit. -/
def boundedSearch (t : Task) (strategy : Strategy) (s : State) (p : Progress) : Report :=
  match t.options.limit.floor with
  | some k => (walk t (k + 1 - s.depth) strategy t.wanted s ⟨[], p⟩).report
  | none => search t strategy s p

theorem search_eq_boundedSearch : search = boundedSearch := by
  funext t strategy s p
  rw [boundedSearch]
  split
  · next hfloor => exact search_eq_walk hfloor strategy s p
  · rfl

/-- What holds of the reports on two walks holds of the reports on the searches. Where a walk runs
out of levels its progress must not matter. -/
theorem search_of_walks {P : Report → Report → Prop} {t t' : Task} {strategy strategy' : Strategy}
    {s s' : State} {p p' : Progress} (hlimit : t'.options.limit = t.options.limit)
    (hdepth : s'.depth = s.depth)
    (hleft : ∀ q r, P ⟨.error .divergent, q⟩ r → r.outcome ≠ .error .divergent →
      P ⟨.error .divergent, p⟩ r)
    (hright : ∀ r q, P r ⟨.error .divergent, q⟩ → r.outcome ≠ .error .divergent →
      P r ⟨.error .divergent, p'⟩)
    (hdivergent : P ⟨.error .divergent, p⟩ ⟨.error .divergent, p'⟩)
    (hwalk : ∀ n, t.Leaves s.depth n → P (walk t n strategy t.wanted s ⟨[], p⟩).report
      (walk t' n strategy' t'.wanted s' ⟨[], p'⟩).report) :
    P (search t strategy s p) (search t' strategy' s' p') := by
  have hleaves : ∀ᶠ n in levels t.options.limit s.depth, t.Leaves s.depth n :=
    levels_eventually_leaves
  rcases search_cases t strategy s p, search_cases t' strategy' s' p'
    with ⟨⟨hne, heq⟩ | ⟨_, heq, hdiv⟩, ⟨hne', heq'⟩ | ⟨_, heq', hdiv'⟩⟩
  · rw [hlimit, hdepth] at heq'
    obtain ⟨n, hn, hw, hw'⟩ := (hleaves.and (heq.and heq')).exists
    rw [hw, hw']
    exact hwalk n hn
  · obtain ⟨n, hn, hw⟩ := (hleaves.and heq).exists
    obtain ⟨q, hq⟩ := hdiv' n
    have hrelated := hwalk n hn
    rw [← hw, hq] at hrelated
    rw [heq']
    exact hright _ q hrelated hne
  · rw [hlimit, hdepth] at heq'
    obtain ⟨n, hn, hw⟩ := (hleaves.and heq').exists
    obtain ⟨q, hq⟩ := hdiv n
    have hrelated := hwalk n hn
    rw [← hw, hq] at hrelated
    rw [heq]
    exact hleft q _ hrelated hne'
  · rw [heq, heq']
    exact hdivergent

/-- Searches with the same walks are the same. -/
theorem search_congr {t t' : Task} {strategy strategy' : Strategy} {s s' : State} {p : Progress}
    (hlimit : t'.options.limit = t.options.limit) (hdepth : s'.depth = s.depth)
    (hwalk : ∀ n, walk t n strategy t.wanted s ⟨[], p⟩ = walk t' n strategy' t'.wanted s' ⟨[], p⟩) :
    search t strategy s p = search t' strategy' s' p := by
  refine search_of_walks (P := Eq) hlimit hdepth ?_ ?_ rfl fun n _ => by rw [hwalk n]
  · rintro q _ rfl hne
    exact (hne rfl).elim
  · rintro _ q rfl hne
    exact (hne rfl).elim

/-- What an evaluator makes of the report on a search for all proofs. -/
theorem solve_of_search (ev : Evaluator) (goals : List Goal) (b : Bindings) {r : Report}
    (h : search ⟨ev.kb, ev.options, none⟩ ev.options.strategy ⟨goals, b, 0⟩ {} = r) :
    ev.solve goals b = (r.outcome, { ev with
      progress := match r.outcome with
        | .error _ => r.progress
        | .ok rs => r.progress.report (.solved goals.length rs.length r.progress.stats) }) := by
  obtain ⟨e | rs, p⟩ := r
  · simp only [Evaluator.solve, Evaluator.search, Evaluator.reset, h]
  · simp only [Evaluator.solve, Evaluator.search, Evaluator.reset, h]

theorem stats_solve (ev : Evaluator) (goals : List Goal) (b : Bindings) :
    (ev.solve goals b).2.progress.stats =
      (search ⟨ev.kb, ev.options, none⟩ ev.options.strategy ⟨goals, b, 0⟩ {}).progress.stats := by
  rw [solve_of_search ev goals b rfl]
  dsimp only
  split <;> rfl

theorem ask_of_search (ev : Evaluator) (goals : List Goal) {r : Report}
    (h : search ⟨ev.kb, ev.options, some 1⟩ ev.options.strategy ⟨goals, ∅, 0⟩ {} = r) :
    ev.ask goals = (r.outcome.map (!·.isEmpty), { ev with progress := r.progress }) := by
  simp only [Evaluator.ask, Evaluator.search, Evaluator.reset, h]

theorem solve_eventually_eq (ev : Evaluator) (goals : List Goal) (b : Bindings) :
    ∀ᶠ n in levels ev.options.limit 0, (ev.solve goals b).1 =
      (walk ⟨ev.kb, ev.options, none⟩ n ev.options.strategy none ⟨goals, b, 0⟩
      ⟨[], {}⟩).report.outcome := by
  rw [solve_of_search ev goals b rfl]
  exact outcome_eventually_eq ⟨ev.kb, ev.options, none⟩ _ _ _

theorem solve_eq_walk {ev : Evaluator} {k : Nat} (hfloor : ev.options.limit.floor = some k)
    (goals : List Goal) (b : Bindings) :
    (ev.solve goals b).1 = (walk ⟨ev.kb, ev.options, none⟩ (k + 1) ev.options.strategy none
      ⟨goals, b, 0⟩ ⟨[], {}⟩).report.outcome := by
  rw [solve_of_search ev goals b rfl, search_eq_walk (k := k) hfloor]
  rfl

/-- It returns when the walk through all states comes to its end. -/
theorem solve_eventually_eq_ok_iff (ev : Evaluator) (goals : List Goal) (b : Bindings) :
    ∀ᶠ n in levels ev.options.limit 0, ∀ results, (ev.solve goals b).1 = .ok results ↔
      ∃ f, walk ⟨ev.kb, ev.options, none⟩ n ev.options.strategy none ⟨goals, b, 0⟩ ⟨[], {}⟩ =
        .more f ∧ results = f.results.reverse := by
  filter_upwards [solve_eventually_eq ev goals b] with n hn results
  rw [hn]
  cases hwalk : walk ⟨ev.kb, ev.options, none⟩ n ev.options.strategy none
    ⟨goals, b, 0⟩ ⟨[], {}⟩ with
  | more f => simp [Walk.report, eq_comm]
  | enough f => exact (walk_none_ne_enough _ _ _ _ _ f hwalk).elim
  | failed e p => simp [Walk.report]

theorem walk_of_solve {ev : Evaluator} {goals : List Goal} {b : Bindings} {results : List Bindings}
    (h : (ev.solve goals b).1 = .ok results) :
    ∃ n f, walk ⟨ev.kb, ev.options, none⟩ n ev.options.strategy none ⟨goals, b, 0⟩ ⟨[], {}⟩ =
      .more f ∧ results = f.results.reverse := by
  obtain ⟨n, hn⟩ := (solve_eventually_eq_ok_iff ev goals b).exists
  exact ⟨n, (hn results).mp h⟩

end Clausal.Search

namespace Clausal.Evaluator

theorem exists_ok_of_length {out : Except Fault (List Bindings)} {n : Nat}
    (h : out.toOption.map List.length = some n) :
    ∃ results, out = .ok results ∧ results.length = n := by
  obtain ⟨results, hout, hlength⟩ := Option.map_eq_some_iff.mp h
  cases out with
  | error e => simp [Except.toOption] at hout
  | ok results' =>
      obtain rfl : results' = results := by simpa [Except.toOption] using hout
      exact ⟨results', rfl, hlength⟩

end Clausal.Evaluator
