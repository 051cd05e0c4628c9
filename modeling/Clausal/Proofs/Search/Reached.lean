import Clausal.Proofs.Search.Recursion
import Clausal.Proofs.Search.Selection

/-!
# Machines that a search reaches

The stack of a machine and the stacks of the searches that wait for it hold everything that is still
to be done. What one step can put on a stack is said once, by `Arises`; a property of all entries
that is kept by these cases holds in every machine that a search reaches.
-/

namespace Clausal.Search

/-- The states that take the place of a state, each with the progress before and after the step. -/
inductive Follows (t : Task) (strategy : Strategy) (s : State) (p : Progress) :
    State → Progress → Prop
  | negated {sel : Selection} {p' : Progress} (hsel : Selects t strategy s sel)
      (hneg : sel.goal.negated = true) (hp : p.applications ≤ p'.applications) :
      Follows t strategy s p ⟨sel.rest, sel.bindings, s.depth + 1⟩ p'
  | builtin {sel : Selection} {b : Bindings} {p' : Progress} (hsel : Selects t strategy s sel)
      (hneg : sel.goal.negated = false) (hbuiltin : isBuiltin sel.goal.predicate = true)
      (hsolve : Builtin.solve t.options.unifier sel.goal sel.bindings = .ok (some b))
      (hp : p.applications ≤ p'.applications) :
      Follows t strategy s p ⟨sel.rest, b, s.depth + 1⟩ p'
  | clause {sel : Selection} {attempt : Progress → Attempt} {s' : State} {p' : Progress}
      (hsel : Selects t strategy s sel) (hneg : sel.goal.negated = false)
      (hbuiltin : isBuiltin sel.goal.predicate = false)
      (hmem : attempt ∈ attempts t sel s.depth) (hattempt : attempt p = (.ok (some s'), p')) :
      Follows t strategy s p s' p'

/-- Choices that a state has left for its selected goal. -/
structure Choices.From (t : Task) (strategy : Strategy) (s : State) (c : Choices) : Prop where
  selects : Selects t strategy s c.selection
  positive : c.selection.goal.negated = false
  user : isBuiltin c.selection.goal.predicate = false
  depth : c.depth = s.depth
  facts : c.facts ⊆ t.kb.factsFor c.selection.goal.predicate
  rules : c.rules ⊆ t.kb.rulesFor c.selection.goal.predicate

/-- The attempts that are left. -/
def Choices.attempts (t : Task) (c : Choices) : List (Progress → Attempt) :=
  c.facts.map (tryFact t.options c.selection c.depth) ++
    c.rules.map (tryRule t.options c.selection c.depth)

theorem Choices.From.follows {t : Task} {strategy : Strategy} {s s' : State} {c : Choices}
    {p p' : Progress} (h : c.From t strategy s) {attempt : Progress → Attempt}
    (hmem : attempt ∈ c.attempts t) (hattempt : attempt p = (.ok (some s'), p')) :
    Follows t strategy s p s' p' := by
  have hall : attempt ∈ Search.attempts t c.selection s.depth := by
    rw [Choices.attempts, h.depth] at hmem
    rcases List.mem_append.mp hmem with hfact | hrule
    · exact List.mem_append_left _ (List.map_subset _ h.facts hfact)
    · exact List.mem_append_right _ (List.map_subset _ h.rules hrule)
  exact .clause h.selects h.positive h.user hall hattempt

namespace Machine

/-- An entry of a stack, with the strategy of the search that the stack belongs to. A search that
waits has the state in which it goes on ahead of its stack. -/
def Stacked (m : Machine) (strategy : Strategy) (f : Frame) : Prop :=
  strategy = m.level.strategy ∧ f ∈ m.level.frames ∨
    ∃ e ∈ m.suspended, strategy = e.1.strategy ∧ (f = .state e.2 ∨ f ∈ e.1.frames)

/-- The entries that a step can add, with the progress after the step. -/
inductive Arises (t : Task) (m : Machine) (p : Progress) : Strategy → Frame → Prop
  | state {s s' : State} {frames : List Frame} (htop : m.level.frames = .state s :: frames)
      (hfollows : Follows t m.level.strategy s m.progress s' p) :
      Arises t m p m.level.strategy (.state s')
  | inner {s : State} {sel : Selection} {frames : List Frame}
      (htop : m.level.frames = .state s :: frames) (hsel : Selects t m.level.strategy s sel)
      (hneg : sel.goal.negated = true) :
      Arises t m p t.options.strategy (.state ⟨[sel.goal.positive], sel.bindings, s.depth + 1⟩)
  | choices {s : State} {c : Choices} {frames : List Frame}
      (htop : m.level.frames = .state s :: frames) (hfrom : c.From t m.level.strategy s) :
      Arises t m p m.level.strategy (.choices c)
  | left {c c' : Choices} {frames : List Frame} (htop : m.level.frames = .choices c :: frames)
      (hsel : c'.selection = c.selection) (hdepth : c'.depth = c.depth)
      (hfacts : c'.facts ⊆ c.facts) (hrules : c'.rules ⊆ c.rules) :
      Arises t m p m.level.strategy (.choices c')
  | attempt {c : Choices} {frames : List Frame} {attempt : Progress → Attempt} {s' : State}
      (htop : m.level.frames = .choices c :: frames) (hmem : attempt ∈ c.attempts t)
      (hattempt : attempt m.progress = (.ok (some s'), p)) :
      Arises t m p m.level.strategy (.state s')

variable {t : Task} {m m' : Machine} {strategy : Strategy} {f : Frame}

/-- What a step does to the entries and to the number of copies. -/
def Accounted (t : Task) (m m' : Machine) : Prop :=
  m.progress.applications ≤ m'.progress.applications ∧
    ∀ strategy f, m'.Stacked strategy f → m.Stacked strategy f ∨ Arises t m m'.progress strategy f

/-- A step that only changes the stack of the running search. -/
theorem accounted_withFrames {top : Frame} {frames frames' : List Frame} {p : Progress}
    {results : List Bindings} (htop : m.level.frames = top :: frames)
    (hp : m.progress.applications ≤ p.applications)
    (hnew : ∀ f ∈ frames', f ∈ frames ∨ Arises t m p m.level.strategy f) :
    Accounted t m { m.withFrames frames' with results, progress := p } := by
  refine ⟨hp, fun strategy f hf => ?_⟩
  rcases hf with ⟨hstrategy, hmem⟩ | hwaiting
  · have hstrategy : strategy = m.level.strategy := hstrategy
    subst hstrategy
    rcases hnew f hmem with hold | harises
    · exact .inl (.inl ⟨rfl, by rw [htop]; exact List.mem_cons_of_mem _ hold⟩)
    · exact .inr harises
  · exact .inl (.inr hwaiting)

theorem accounted_leave {m' : Machine} (h : m.leave = .running m') : Accounted t m m' := by
  rw [leave] at h
  split at h
  · simp [finish] at h
  · next level s rest hs =>
    obtain rfl := Next.running.inj h
    refine ⟨Nat.le_refl _, fun strategy f hf => .inl (.inr ?_)⟩
    rw [hs]
    rcases hf with ⟨hstrategy, hmem⟩ | ⟨e, he, hwaiting⟩
    · exact ⟨(level, s), List.mem_cons_self, hstrategy, List.mem_cons.mp hmem⟩
    · exact ⟨e, List.mem_cons_of_mem _ he, hwaiting⟩

theorem accounted_prove {m' : Machine} {b : Bindings} {top : Frame} {frames : List Frame}
    {p : Progress} (htop : m.level.frames = top :: frames)
    (hp : p.applications = m.progress.applications) (h : prove t m b frames p = .running m') :
    Accounted t m m' := by
  rw [prove] at h
  split at h
  · next level s rest hs =>
    obtain rfl := Next.running.inj h
    refine ⟨hp.ge, fun strategy f hf => .inl (.inr ?_)⟩
    rw [hs]
    rcases hf with ⟨hstrategy, hmem⟩ | ⟨e, he, hwaiting⟩
    · exact ⟨(level, s), List.mem_cons_self, hstrategy, .inr hmem⟩
    · exact ⟨e, List.mem_cons_of_mem _ he, hwaiting⟩
  · dsimp only at h
    split at h
    · simp [finish] at h
    · obtain rfl := Next.running.inj h
      exact accounted_withFrames htop hp.ge fun f hf => .inl hf

theorem accounted_resolve {m' : Machine} {s : State} {sel : Selection} {frames : List Frame}
    {p : Progress} (htop : m.level.frames = .state s :: frames)
    (hsel : Selects t m.level.strategy s sel) (hp : p.applications = m.progress.applications)
    (h : resolve t m sel s.depth frames p = .running m') : Accounted t m m' := by
  rw [resolve] at h
  split at h
  · simp [fail] at h
  · next p' htrace =>
    have hp' : p'.applications = m.progress.applications :=
      (applications_of_traceGoal htrace).trans hp
    split at h
    · next hneg =>
      -- The search that waits is the running one; a search for the goal itself takes its place.
      rw [negate] at h
      obtain rfl := Next.running.inj h
      refine ⟨hp'.ge, fun strategy f hf => ?_⟩
      rcases hf with ⟨rfl, hmem⟩ | ⟨e, he, rfl, hwaiting⟩
      · obtain rfl := List.mem_singleton.mp hmem
        exact .inr (.inner htop hsel hneg)
      · rcases List.mem_cons.mp he with rfl | he
        · rcases hwaiting with rfl | hmem
          · exact .inr (.state htop (.negated hsel hneg hp'.ge))
          · exact .inl (.inl ⟨rfl, by rw [htop]; exact List.mem_cons_of_mem _ hmem⟩)
        · exact .inl (.inr ⟨e, he, rfl, hwaiting⟩)
    · next hneg =>
      have hpos : sel.goal.negated = false := by simpa using hneg
      split at h
      · next hbuiltin =>
        split at h
        · simp [fail] at h
        · obtain rfl := Next.running.inj h
          exact accounted_withFrames htop hp'.ge fun f hf => .inl hf
        · next b hsolve =>
          obtain rfl := Next.running.inj h
          refine accounted_withFrames htop hp'.ge fun f hf => ?_
          rcases List.mem_cons.mp hf with rfl | hf
          · exact .inr (.state htop (.builtin hsel hpos hbuiltin hsolve hp'.ge))
          · exact .inl hf
      · next hbuiltin =>
        obtain rfl := Next.running.inj h
        refine accounted_withFrames htop hp'.ge fun f hf => ?_
        rcases List.mem_cons.mp hf with rfl | hf
        · exact .inr (.choices htop ⟨hsel, hpos, by simpa using hbuiltin, rfl, List.Subset.refl _,
            List.Subset.refl _⟩)
        · exact .inl hf

theorem accounted_advance {m' : Machine} {c : Choices} (c' : Choices) {frames : List Frame}
    {attempt : Progress → Attempt} (htop : m.level.frames = .choices c :: frames)
    (hsel : c'.selection = c.selection) (hdepth : c'.depth = c.depth) (hfacts : c'.facts ⊆ c.facts)
    (hrules : c'.rules ⊆ c.rules) (hmem : attempt ∈ c.attempts t)
    (hp : m.progress.applications ≤ (attempt m.progress).2.applications)
    (h : m.advance c' frames (attempt m.progress) = .running m') : Accounted t m m' := by
  have hleft : ∀ p, Arises t m p m.level.strategy (.choices c') := fun p =>
    .left htop hsel hdepth hfacts hrules
  rcases hattempt : attempt m.progress with ⟨e | _ | s', p⟩
  · simp [hattempt, advance, fail] at h
  all_goals
    rw [hattempt] at h hp
    obtain rfl := Next.running.inj h
    refine accounted_withFrames htop hp fun f hf => ?_
  · rcases List.mem_cons.mp hf with rfl | hf
    · exact .inr (hleft p)
    · exact .inl hf
  · rcases List.mem_cons.mp hf with rfl | hf
    · exact .inr (.attempt htop hmem hattempt)
    · rcases List.mem_cons.mp hf with rfl | hf
      · exact .inr (hleft p)
      · exact .inl hf

theorem accounted_step (h : m.step t = .running m') : Accounted t m m' := by
  rw [step] at h
  split at h
  · exact accounted_leave h
  · next s frames htop =>
    rw [visit] at h
    split at h
    · simp [fail] at h
    · dsimp only at h
      split at h
      · exact accounted_prove htop (applications_visit _ _) h
      · next g gs hgoals =>
        split at h
        · simp [fail] at h
        · obtain rfl := Next.running.inj h
          exact accounted_withFrames htop (Nat.le_refl _) fun f hf => .inl hf
        · next sel hselect =>
          have hp := applications_visit m.progress s.depth
          exact accounted_resolve htop ⟨g, gs, hgoals, hselect⟩ ((applications_infer _).trans hp) h
  · next c frames htop =>
    rw [choose] at h
    split at h
    · next fact facts hfacts =>
      refine accounted_advance { c with facts } htop rfl rfl ?_ (List.Subset.refl _) ?_
        (applications_le_tryFact t.options c.selection c.depth fact m.progress) h
      · simp [hfacts]
      · simp [Choices.attempts, hfacts]
    · next rule rules hfacts hrules =>
      refine accounted_advance { c with rules } htop rfl rfl (List.Subset.refl _) ?_ ?_
        (applications_le_tryRule t.options c.selection c.depth rule m.progress) h
      · simp [hrules]
      · simp [Choices.attempts, hfacts, hrules]
    · obtain rfl := Next.running.inj h
      exact accounted_withFrames htop (Nat.le_refl _) fun f hf => .inl hf

end Machine

/-! ## What the states of a walk have in common -/

/-- A property of a state and of the progress it is visited at passes from state to state. So it
holds where a result is found. -/
theorem yields_walk_of_follows {t : Task} {strategy : Strategy} {P : Progress → State → Prop}
    {Q : Bindings → Prop}
    (hmono : ∀ {p p' s}, P p s → p.applications ≤ p'.applications → P p' s)
    (hstep : ∀ {p p' s s'}, P p s → Follows t strategy s p s' p' → P p' s')
    (hdone : ∀ {p s}, P p s → s.goals = [] → Q s.bindings) (n : Nat)
    (wanted : Option Nat) (s : State) (f : Found) (hs : P f.progress s) :
    (walk t n strategy wanted s f).Yields f.results Q := by
  induction n generalizing s f with
  | zero => trivial
  | succ n ih =>
      have hold : ∀ r ∈ f.results, r ∈ f.results ∨ Q r := fun r hr => .inl hr
      refine walk_cases (motive := fun w => w.Yields f.results Q) ?_ ?_ ?_ ?_ ?_ ?_ ?_ ?_
      · intro e p
        trivial
      · intro hgoals
        have hadded : ∀ r ∈ s.bindings :: f.results, r ∈ f.results ∨ Q r := by
          intro r hr
          rcases List.mem_cons.mp hr with rfl | hr
          · exact .inr (hdone hs hgoals)
          · exact .inl hr
        rw [Found.add]
        split <;> exact hadded
      · intro g gs p _ _ _
        exact hold
      · intro sel p inside _ _ _ _
        exact hold
      · intro sel p inside hsel hneg hp hwalk
        -- The search for the negated goal has made copies as well.
        have hinside : Walk.Grows ⟨[], p⟩ (.more inside) := hwalk ▸ grows_walk _ _ _ _ _ _
        have hle : f.progress.applications ≤ inside.progress.applications :=
          hp ▸ hinside.applications
        exact ih _ { f with progress := inside.progress } (hstep hs (.negated hsel hneg hle))
      · intro sel p _ _ _ _ _
        exact hold
      · intro sel b p hsel hneg hbuiltin hsolve hp
        exact ih _ { f with progress := p } (hstep hs (.builtin hsel hneg hbuiltin hsolve hp.ge))
      · intro sel p hsel hneg hbuiltin hp
        refine yields_walkAttempts (grows_walk t n strategy wanted)
          (fun a => applications_le_attempts) _ (fun a ha f' s' p' hf' hattempt => ?_) hold
        have hs' : P f'.progress s := hmono hs (hp ▸ hf'.applications)
        exact ih s' { f' with progress := p' } (hstep hs' (.clause hsel hneg hbuiltin ha hattempt))

end Clausal.Search
