import Clausal.Search.Recursive

/-!
# Walks

What a walk through a state can do is said once, by `walk_cases_faults`; everything about walks is
an induction on the levels that are left with these cases. In most of them nothing is claimed of a
failed walk, and `walk_cases` leaves the faults out.
-/

namespace Clausal.Search

/-- The goal that a state works on, with the other goals and the bindings that it is
resolved under. -/
def Selects (t : Task) (strategy : Strategy) (s : State) (sel : Selection) : Prop :=
  ∃ g gs, s.goals = g :: gs ∧
    select t.kb t.options.unifier strategy g gs s.bindings = .ok (some sel)

@[simp] theorem applications_visit (p : Progress) (depth : Nat) :
    (p.visit depth).applications = p.applications := rfl

@[simp] theorem applications_infer (p : Progress) : p.infer.applications = p.applications := rfl

theorem applications_of_traceGoal {o : Options} {sel : Selection} {depth : Nat} {p p' : Progress}
    (h : traceGoal o sel depth p = .ok p') : p'.applications = p.applications := by
  rw [traceGoal] at h
  split at h
  · split at h
    · simp at h
    · obtain rfl : p.report _ = p' := by simpa using h
      rfl
  · obtain rfl : p = p' := by simpa using h
    rfl

/-- The successor of a fact lies one level deeper. -/
theorem depth_of_tryFact {o : Options} {sel : Selection} {depth : Nat} {f : Fact} {p : Progress}
    {s : State} (h : (tryFact o sel depth f p).1 = .ok (some s)) : s.depth = depth + 1 := by
  simp only [tryFact] at h
  split at h
  · simp at h
  · split at h <;> simp at h
    subst h
    rfl

theorem depth_of_tryRule {o : Options} {sel : Selection} {depth : Nat} {r : Rule} {p : Progress}
    {s : State} (h : (tryRule o sel depth r p).1 = .ok (some s)) : s.depth = depth + 1 := by
  simp only [tryRule] at h
  split at h
  · simp at h
  · split at h <;> simp at h
    subst h
    rfl

/-- Walks on from a state whose goal is selected. -/
def walkSelected (t : Task) (n : Nat) (strategy : Strategy) (wanted : Option Nat) (depth : Nat)
    (f : Found) (sel : Selection) (p : Progress) : Walk :=
  match traceGoal t.options sel depth p with
  | .error e => .failed e p
  | .ok p =>
    if sel.goal.negated then
      match walk t n t.options.strategy (some 1) ⟨[sel.goal.positive], sel.bindings, depth + 1⟩
        ⟨[], p⟩ with
      | .failed e p => .failed e p
      | .enough inside => .more { f with progress := inside.progress }
      | .more inside => walk t n strategy wanted ⟨sel.rest, sel.bindings, depth + 1⟩
        { f with progress := inside.progress }
    else if isBuiltin sel.goal.predicate then
      match Builtin.solve t.options.unifier sel.goal sel.bindings with
      | .error e => .failed e p
      | .ok none => .more { f with progress := p }
      | .ok (some b) => walk t n strategy wanted ⟨sel.rest, b, depth + 1⟩ { f with progress := p }
    else walkAttempts (walk t n strategy wanted) (attempts t sel depth) { f with progress := p }

section Equations

variable {t : Task} {n : Nat} {strategy : Strategy} {wanted : Option Nat} {s : State} {f : Found}
  {g : Goal} {gs : List Goal} {sel : Selection}

theorem walk_done (hgoals : s.goals = []) :
    walk t (n + 1) strategy wanted s f =
      { f with progress := f.progress.visit s.depth }.add wanted s.bindings := by
  rw [walk, hgoals]

theorem walk_unselected {e : Fault} (hgoals : s.goals = g :: gs)
    (hselect : select t.kb t.options.unifier strategy g gs s.bindings = .error e) :
    walk t (n + 1) strategy wanted s f = .failed e (f.progress.visit s.depth).infer := by
  rw [walk, hgoals]
  dsimp only
  rw [hselect]

theorem walk_pruned (hgoals : s.goals = g :: gs)
    (hselect : select t.kb t.options.unifier strategy g gs s.bindings = .ok none) :
    walk t (n + 1) strategy wanted s f =
      .more { f with progress := (f.progress.visit s.depth).infer.prune } := by
  rw [walk, hgoals]
  dsimp only
  rw [hselect]

theorem walk_selected (hgoals : s.goals = g :: gs)
    (hselect : select t.kb t.options.unifier strategy g gs s.bindings = .ok (some sel)) :
    walk t (n + 1) strategy wanted s f =
      walkSelected t n strategy wanted s.depth f sel (f.progress.visit s.depth).infer := by
  rw [walk, hgoals]
  dsimp only
  rw [hselect]
  rfl

end Equations

/-- How a walk through a state above the limit fails before it goes on to a successor. -/
inductive FailsAt (t : Task) (n : Nat) (strategy : Strategy) (s : State) : Fault → Prop
  | select {g : Goal} {gs : List Goal} {e : Fault} (hgoals : s.goals = g :: gs)
      (h : select t.kb t.options.unifier strategy g gs s.bindings = .error e) :
      FailsAt t n strategy s e
  | trace {sel : Selection} {p : Progress} {e : Fault} (hsel : Selects t strategy s sel)
      (h : traceGoal t.options sel s.depth p = .error e) : FailsAt t n strategy s e
  | inner {sel : Selection} {p q : Progress} {e : Fault} (hsel : Selects t strategy s sel)
      (h : walk t n t.options.strategy (some 1) ⟨[sel.goal.positive], sel.bindings, s.depth + 1⟩
        ⟨[], p⟩ = .failed e q) : FailsAt t n strategy s e
  | solve {sel : Selection} {e : Fault} (hsel : Selects t strategy s sel)
      (h : Builtin.solve t.options.unifier sel.goal sel.bindings = .error e) :
      FailsAt t n strategy s e

/-- The cases of a walk through a state above the limit, with the faults. Until the goal is resolved
no clause is copied. -/
theorem walk_cases_faults {t : Task} {n : Nat} {strategy : Strategy}
    {wanted : Option Nat} {s : State} {f : Found} {motive : Walk → Prop}
    (failed : ∀ e p, FailsAt t n strategy s e → motive (.failed e p))
    (done : s.goals = [] →
      motive ({ f with progress := f.progress.visit s.depth }.add wanted s.bindings))
    (pruned : ∀ g gs p, s.goals = g :: gs →
      select t.kb t.options.unifier strategy g gs s.bindings = .ok none →
      p.applications = f.progress.applications → motive (.more { f with progress := p }))
    (refuted : ∀ sel p inside, Selects t strategy s sel → sel.goal.negated = true →
      p.applications = f.progress.applications →
      walk t n t.options.strategy (some 1) ⟨[sel.goal.positive], sel.bindings, s.depth + 1⟩
        ⟨[], p⟩ = .enough inside →
      motive (.more { f with progress := inside.progress }))
    (negated : ∀ sel p inside, Selects t strategy s sel → sel.goal.negated = true →
      p.applications = f.progress.applications →
      walk t n t.options.strategy (some 1) ⟨[sel.goal.positive], sel.bindings, s.depth + 1⟩
        ⟨[], p⟩ = .more inside →
      motive (walk t n strategy wanted ⟨sel.rest, sel.bindings, s.depth + 1⟩
        { f with progress := inside.progress }))
    (unsolved : ∀ sel p, Selects t strategy s sel → sel.goal.negated = false →
      isBuiltin sel.goal.predicate = true →
      Builtin.solve t.options.unifier sel.goal sel.bindings = .ok none →
      p.applications = f.progress.applications → motive (.more { f with progress := p }))
    (solved : ∀ sel b p, Selects t strategy s sel → sel.goal.negated = false →
      isBuiltin sel.goal.predicate = true →
      Builtin.solve t.options.unifier sel.goal sel.bindings = .ok (some b) →
      p.applications = f.progress.applications →
      motive (walk t n strategy wanted ⟨sel.rest, b, s.depth + 1⟩ { f with progress := p }))
    (clauses : ∀ sel p, Selects t strategy s sel → sel.goal.negated = false →
      isBuiltin sel.goal.predicate = false → p.applications = f.progress.applications →
      motive (walkAttempts (walk t n strategy wanted) (attempts t sel s.depth)
        { f with progress := p })) :
    motive (walk t (n + 1) strategy wanted s f) := by
  cases hgoals : s.goals with
  | nil =>
      rw [walk_done hgoals]
      exact done hgoals
  | cons g gs =>
      rcases hselect : select t.kb t.options.unifier strategy g gs s.bindings with e | _ | sel
      · rw [walk_unselected hgoals hselect]
        exact failed e _ (.select hgoals hselect)
      · rw [walk_pruned hgoals hselect]
        exact pruned g gs (f.progress.visit s.depth).infer.prune hgoals hselect rfl
      · have hsel : Selects t strategy s sel := ⟨g, gs, hgoals, hselect⟩
        rw [walk_selected hgoals hselect, walkSelected]
        rcases htrace : traceGoal t.options sel s.depth (f.progress.visit s.depth).infer with e | p
        · exact failed e _ (.trace hsel htrace)
        · have hp : p.applications = f.progress.applications := by
            simpa using applications_of_traceGoal htrace
          dsimp only
          by_cases hneg : sel.goal.negated = true
          · rw [if_pos hneg]
            rcases hinner : walk t n t.options.strategy (some 1)
              ⟨[sel.goal.positive], sel.bindings, s.depth + 1⟩ ⟨[], p⟩ with inside | inside | ⟨e, q⟩
            · exact negated sel p inside hsel hneg hp hinner
            · exact refuted sel p inside hsel hneg hp hinner
            · exact failed e q (.inner hsel hinner)
          · rw [if_neg hneg]
            have hpos : sel.goal.negated = false := by simpa using hneg
            by_cases hbuiltin : isBuiltin sel.goal.predicate = true
            · rw [if_pos hbuiltin]
              rcases hsolve : Builtin.solve t.options.unifier sel.goal sel.bindings with e | _ | b
              · exact failed e p (.solve hsel hsolve)
              · exact unsolved sel p hsel hpos hbuiltin hsolve hp
              · exact solved sel b p hsel hpos hbuiltin hsolve hp
            · rw [if_neg hbuiltin]
              exact clauses sel p hsel hpos (by simpa using hbuiltin) hp

/-- The cases of a walk through a state above the limit, where faults do not matter. -/
theorem walk_cases {t : Task} {n : Nat} {strategy : Strategy} {wanted : Option Nat} {s : State}
    {f : Found} {motive : Walk → Prop} (failed : ∀ e p, motive (.failed e p))
    (done : s.goals = [] →
      motive ({ f with progress := f.progress.visit s.depth }.add wanted s.bindings))
    (pruned : ∀ g gs p, s.goals = g :: gs →
      select t.kb t.options.unifier strategy g gs s.bindings = .ok none →
      p.applications = f.progress.applications → motive (.more { f with progress := p }))
    (refuted : ∀ sel p inside, Selects t strategy s sel → sel.goal.negated = true →
      p.applications = f.progress.applications →
      walk t n t.options.strategy (some 1) ⟨[sel.goal.positive], sel.bindings, s.depth + 1⟩
        ⟨[], p⟩ = .enough inside →
      motive (.more { f with progress := inside.progress }))
    (negated : ∀ sel p inside, Selects t strategy s sel → sel.goal.negated = true →
      p.applications = f.progress.applications →
      walk t n t.options.strategy (some 1) ⟨[sel.goal.positive], sel.bindings, s.depth + 1⟩
        ⟨[], p⟩ = .more inside →
      motive (walk t n strategy wanted ⟨sel.rest, sel.bindings, s.depth + 1⟩
        { f with progress := inside.progress }))
    (unsolved : ∀ sel p, Selects t strategy s sel → sel.goal.negated = false →
      isBuiltin sel.goal.predicate = true →
      Builtin.solve t.options.unifier sel.goal sel.bindings = .ok none →
      p.applications = f.progress.applications → motive (.more { f with progress := p }))
    (solved : ∀ sel b p, Selects t strategy s sel → sel.goal.negated = false →
      isBuiltin sel.goal.predicate = true →
      Builtin.solve t.options.unifier sel.goal sel.bindings = .ok (some b) →
      p.applications = f.progress.applications →
      motive (walk t n strategy wanted ⟨sel.rest, b, s.depth + 1⟩ { f with progress := p }))
    (clauses : ∀ sel p, Selects t strategy s sel → sel.goal.negated = false →
      isBuiltin sel.goal.predicate = false → p.applications = f.progress.applications →
      motive (walkAttempts (walk t n strategy wanted) (attempts t sel s.depth)
        { f with progress := p })) :
    motive (walk t (n + 1) strategy wanted s f) :=
  walk_cases_faults (fun e p _ => failed e p) done pruned refuted negated unsolved solved clauses

/-! ## One successor after the other -/

theorem walkAttempts_singleton (go : State → Found → Walk) (a : Progress → Attempt) (f : Found) :
    walkAttempts go [a] f =
      match a f.progress with
      | (.error e, p) => .failed e p
      | (.ok none, p) => .more { f with progress := p }
      | (.ok (some s), p) => go s { f with progress := p } := by
  rw [walkAttempts]
  rcases a f.progress with ⟨e | _ | s, p⟩
  · rfl
  · rfl
  · dsimp only
    cases go s { f with progress := p } <;> rfl

theorem walkAttempts_cons (go : State → Found → Walk) (a : Progress → Attempt)
    (as : List (Progress → Attempt)) (f : Found) :
    walkAttempts go (a :: as) f =
      match walkAttempts go [a] f with
      | .more f' => walkAttempts go as f'
      | stopped => stopped := by
  simp only [walkAttempts]
  rcases a f.progress with ⟨e | _ | s, p⟩
  · rfl
  · rfl
  · dsimp only
    cases go s { f with progress := p } <;> rfl

/-! ## When a walk has enough -/

/-- A walk stops because there are enough results, and goes on because there are not. -/
def Walk.Counts (wanted : Option Nat) : Walk → Prop
  | .more f => Machine.isEnough wanted f.results = false
  | .enough f => Machine.isEnough wanted f.results = true
  | .failed _ _ => True

theorem counts_add (f : Found) (wanted : Option Nat) (b : Bindings) :
    (f.add wanted b).Counts wanted := by
  rw [Found.add]
  cases h : Machine.isEnough wanted (b :: f.results) <;> exact h

theorem counts_walkAttempts {wanted : Option Nat} {go : State → Found → Walk}
    (hgo : ∀ s f, Machine.isEnough wanted f.results = false → (go s f).Counts wanted)
    (as : List (Progress → Attempt)) (f : Found) (hf : Machine.isEnough wanted f.results = false) :
    (walkAttempts go as f).Counts wanted := by
  induction as generalizing f with
  | nil => exact hf
  | cons a as ih =>
      rw [walkAttempts]
      split
      · trivial
      · exact ih _ hf
      · next s p _ =>
        have hs := hgo s { f with progress := p } hf
        split
        · next f' hmore =>
          rw [hmore] at hs
          exact ih f' hs
        · exact hs

theorem counts_walk (t : Task) (n : Nat) (strategy : Strategy) (wanted : Option Nat) (s : State)
    (f : Found) (hf : Machine.isEnough wanted f.results = false) :
    (walk t n strategy wanted s f).Counts wanted := by
  induction n generalizing s f with
  | zero => trivial
  | succ n ih =>
      refine walk_cases (motive := Walk.Counts wanted) ?_ ?_ ?_ ?_ ?_ ?_ ?_ ?_
      · intro e p
        trivial
      · intro _
        exact counts_add _ wanted s.bindings
      · intro g gs p _ _ _
        exact hf
      · intro sel p inside _ _ _ _
        exact hf
      · intro sel p inside _ _ _ _
        exact ih _ _ hf
      · intro sel p _ _ _ _ _
        exact hf
      · intro sel b p _ _ _ _ _
        exact ih _ _ hf
      · intro sel p _ _ _ _
        exact counts_walkAttempts ih _ _ hf

/-- An inner search that goes on has no result. -/
theorem results_of_walk_more {t : Task} {n : Nat} {strategy : Strategy} {s : State} {f f' : Found}
    (hf : f.results = []) (h : walk t n strategy (some 1) s f = .more f') : f'.results = [] := by
  have hcounts := counts_walk t n strategy (some 1) s f (by simp [Machine.isEnough, hf])
  simpa [h, Walk.Counts, Machine.isEnough] using hcounts

/-- A search for all results never has enough. -/
theorem walk_none_ne_enough (t : Task) (n : Nat) (strategy : Strategy) (s : State) (f f' : Found) :
    walk t n strategy none s f ≠ .enough f' := by
  intro h
  have hcounts := counts_walk t n strategy none s f rfl
  simp [h, Walk.Counts, Machine.isEnough] at hcounts

/-! ## What a walk keeps -/

/-- Results are kept, and copies of clauses are only added. -/
structure Found.Before (f f' : Found) : Prop where
  results : f.results <:+ f'.results
  applications : f.progress.applications ≤ f'.progress.applications

theorem Found.Before.refl (f : Found) : f.Before f := ⟨List.suffix_refl _, Nat.le_refl _⟩

theorem Found.Before.trans {f g h : Found} (hfg : f.Before g) (hgh : g.Before h) : f.Before h :=
  ⟨hfg.results.trans hgh.results, Nat.le_trans hfg.applications hgh.applications⟩

theorem before_of_applications {f : Found} {p : Progress}
    (h : f.progress.applications ≤ p.applications) : f.Before { f with progress := p } :=
  ⟨List.suffix_refl _, h⟩

def Walk.Grows (f : Found) : Walk → Prop
  | .more f' | .enough f' => f.Before f'
  | .failed _ _ => True

theorem Walk.Grows.trans {f g : Found} {w : Walk} (hfg : f.Before g) (hw : w.Grows g) :
    w.Grows f := by
  cases w with
  | more _ | enough _ => exact hfg.trans hw
  | failed _ _ => trivial

theorem applications_le_nextSuffix (mode : RenamingMode) (depth : Nat) (p : Progress) :
    p.applications ≤ (p.nextSuffix mode depth).2.applications := by
  cases mode <;> simp [Progress.nextSuffix]

theorem applications_le_copyFact (mode : RenamingMode) (depth : Nat) (f : Fact) (p : Progress) :
    p.applications ≤ (copyFact mode depth f p).2.applications := by
  rw [copyFact]
  split
  · exact Nat.le_refl _
  · exact applications_le_nextSuffix mode depth p

theorem applications_le_copyRule (mode : RenamingMode) (depth : Nat) (r : Rule) (p : Progress) :
    p.applications ≤ (copyRule mode depth r p).2.applications :=
  applications_le_nextSuffix mode depth p

theorem applications_le_tryFact (o : Options) (sel : Selection) (depth : Nat) (f : Fact)
    (p : Progress) : p.applications ≤ (tryFact o sel depth f p).2.applications := by
  have hcopy := applications_le_copyFact o.mode depth f p
  rw [tryFact]
  split
  · exact Nat.le_refl _
  · dsimp only
    split <;> exact hcopy

theorem applications_le_tryRule (o : Options) (sel : Selection) (depth : Nat) (r : Rule)
    (p : Progress) : p.applications ≤ (tryRule o sel depth r p).2.applications := by
  have hcopy := applications_le_copyRule o.mode depth r p
  rw [tryRule]
  split
  · exact Nat.le_refl _
  · dsimp only
    split <;> exact hcopy

theorem applications_le_attempts {t : Task} {sel : Selection} {depth : Nat}
    {attempt : Progress → Attempt} (h : attempt ∈ attempts t sel depth) (p : Progress) :
    p.applications ≤ (attempt p).2.applications := by
  rcases List.mem_append.mp h with hfact | hrule
  · obtain ⟨f, _, rfl⟩ := List.mem_map.mp hfact
    exact applications_le_tryFact t.options sel depth f p
  · obtain ⟨r, _, rfl⟩ := List.mem_map.mp hrule
    exact applications_le_tryRule t.options sel depth r p

section Attempts

variable {go : State → Found → Walk} {as : List (Progress → Attempt)}

theorem grows_walkAttempts (hgo : ∀ s f, (go s f).Grows f)
    (has : ∀ a ∈ as, ∀ p, p.applications ≤ (a p).2.applications) (f : Found) :
    (walkAttempts go as f).Grows f := by
  induction as generalizing f with
  | nil => exact .refl f
  | cons a as ih =>
      have hrest := ih fun b hb => has b (List.mem_cons_of_mem _ hb)
      have hfirst := has a List.mem_cons_self f.progress
      rw [walkAttempts]
      split
      · trivial
      · next p hattempt =>
        rw [hattempt] at hfirst
        exact (hrest _).trans (before_of_applications hfirst)
      · next s p hattempt =>
        rw [hattempt] at hfirst
        have hs := (hgo s { f with progress := p }).trans (before_of_applications hfirst)
        split
        · next f' hmore =>
          rw [hmore] at hs
          exact (hrest f').trans hs
        · exact hs

/-- A walk through successors that comes to its end has made every attempt without a fault, and has
walked through every state that came out. -/
theorem exists_attempt_of_mem (hgo : ∀ s f, (go s f).Grows f)
    (has : ∀ a ∈ as, ∀ p, p.applications ≤ (a p).2.applications) {f f' : Found}
    (h : walkAttempts go as f = .more f') {a : Progress → Attempt} (ha : a ∈ as) :
    ∃ f₁ o p, f.Before f₁ ∧ a f₁.progress = (.ok o, p) ∧ ∀ s, o = some s →
      ∃ f₂, go s { f₁ with progress := p } = .more f₂ ∧ f₂.results ⊆ f'.results := by
  induction as generalizing f with
  | nil => simp at ha
  | cons b as ih =>
      have hrest : ∀ b' ∈ as, ∀ p, p.applications ≤ (b' p).2.applications :=
        fun b' hb' => has b' (List.mem_cons_of_mem _ hb')
      have hfirst := has b List.mem_cons_self f.progress
      -- The attempt is the first one, or it is made later with at least as many copies.
      have hlater : ∀ f₀ : Found, f.Before f₀ → walkAttempts go as f₀ = .more f' → a ∈ as →
          ∃ f₁ o p, f.Before f₁ ∧ a f₁.progress = (.ok o, p) ∧ ∀ s, o = some s →
            ∃ f₂, go s { f₁ with progress := p } = .more f₂ ∧ f₂.results ⊆ f'.results := by
        intro f₀ hbefore h₀ ha₀
        obtain ⟨f₁, o, p, hf₁, hattempt⟩ := ih hrest h₀ ha₀
        exact ⟨f₁, o, p, hbefore.trans hf₁, hattempt⟩
      rw [walkAttempts] at h
      split at h
      · simp at h
      · next p hattempt =>
        rw [hattempt] at hfirst
        rcases List.mem_cons.mp ha with rfl | ha
        · exact ⟨f, none, p, .refl f, hattempt, fun s hs => by simp at hs⟩
        · exact hlater _ (before_of_applications hfirst) h ha
      · next s p hattempt =>
        rw [hattempt] at hfirst
        split at h
        · next f₀ hmore =>
          rcases List.mem_cons.mp ha with rfl | ha
          · refine ⟨f, some s, p, .refl f, hattempt, fun s' hs' => ?_⟩
            obtain rfl : s = s' := by simpa using hs'
            have hgrows := grows_walkAttempts hgo hrest f₀
            rw [h] at hgrows
            exact ⟨f₀, hmore, hgrows.results.subset⟩
          · have hs := hgo s { f with progress := p }
            rw [hmore] at hs
            exact hlater f₀ ((before_of_applications hfirst).trans hs) h ha
        · next hstop => exact (hstop f' h).elim

end Attempts

theorem grows_walk (t : Task) (n : Nat) (strategy : Strategy) (wanted : Option Nat) (s : State)
    (f : Found) : (walk t n strategy wanted s f).Grows f := by
  induction n generalizing strategy wanted s f with
  | zero => trivial
  | succ n ih =>
      have hsame : ∀ {p : Progress}, p.applications = f.progress.applications →
          f.Before { f with progress := p } := fun hp => before_of_applications
          (Nat.le_of_eq hp.symm)
      -- An inner search passes on its progress only.
      have hinner : ∀ {p : Progress} {inside : Found}, p.applications = f.progress.applications →
          Found.Before ⟨[], p⟩ inside → f.Before { f with progress := inside.progress } := by
        intro p inside hp hinside
        exact before_of_applications (Nat.le_trans (Nat.le_of_eq hp.symm) hinside.applications)
      refine walk_cases (motive := Walk.Grows f) ?_ ?_ ?_ ?_ ?_ ?_ ?_ ?_
      · intro e p
        trivial
      · intro _
        rw [Found.add]
        split <;> exact ⟨List.suffix_cons _ _, Nat.le_refl _⟩
      · intro g gs p _ _ hp
        exact hsame hp
      · intro sel p inside _ _ hp hwalk
        have hgrows : Walk.Grows ⟨[], p⟩ (.enough inside) := hwalk ▸ ih _ _ _ _
        exact hinner hp hgrows
      · intro sel p inside _ _ hp hwalk
        have hgrows : Walk.Grows ⟨[], p⟩ (.more inside) := hwalk ▸ ih _ _ _ _
        exact (ih _ _ _ _).trans (hinner hp hgrows)
      · intro sel p _ _ _ _ hp
        exact hsame hp
      · intro sel b p _ _ _ _ hp
        exact (ih _ _ _ _).trans (hsame hp)
      · intro sel p _ _ _ hp
        exact (grows_walkAttempts (ih strategy wanted) (fun a => applications_le_attempts) _).trans
          (hsame hp)

/-! ## Successors -/

/-- The states that take the place of a state, with the progress at which a clause is copied. -/
inductive Successor (t : Task) (strategy : Strategy) (s : State) (p : Progress) : State → Prop
  | negated {sel : Selection} (hsel : Selects t strategy s sel) (hneg : sel.goal.negated = true) :
      Successor t strategy s p ⟨sel.rest, sel.bindings, s.depth + 1⟩
  | builtin {sel : Selection} {b : Bindings} (hsel : Selects t strategy s sel)
      (hneg : sel.goal.negated = false) (hbuiltin : isBuiltin sel.goal.predicate = true)
      (hsolve : Builtin.solve t.options.unifier sel.goal sel.bindings = .ok (some b)) :
      Successor t strategy s p ⟨sel.rest, b, s.depth + 1⟩
  | fact {sel : Selection} {f : Fact} {b : Bindings} (hsel : Selects t strategy s sel)
      (hneg : sel.goal.negated = false) (hbuiltin : isBuiltin sel.goal.predicate = false)
      (hf : f ∈ t.kb.factsFor sel.goal.predicate)
      (hunify : t.options.unifier.unifyArgs (copyFact t.options.mode s.depth f p).1.args
        sel.goal.args sel.bindings = .ok (some b)) :
      Successor t strategy s p ⟨sel.rest, b, s.depth + 1⟩
  | rule {sel : Selection} {r : Rule} {b : Bindings} (hsel : Selects t strategy s sel)
      (hneg : sel.goal.negated = false) (hbuiltin : isBuiltin sel.goal.predicate = false)
      (hr : r ∈ t.kb.rulesFor sel.goal.predicate)
      (hunify : t.options.unifier.unifyArgs (copyRule t.options.mode s.depth r p).1.head.args
        sel.goal.args sel.bindings = .ok (some b)) :
      Successor t strategy s p
        ⟨(copyRule t.options.mode s.depth r p).1.body ++ sel.rest, b, s.depth + 1⟩

theorem Successor.depth_eq {t : Task} {strategy : Strategy} {s s' : State} {p : Progress}
    (h : Successor t strategy s p s') : s'.depth = s.depth + 1 := by
  cases h <;> rfl

/-- What an attempt with a fact can do without a fault. -/
theorem tryFact_ok {o : Options} {sel : Selection} {depth : Nat} {f : Fact} {p p' : Progress}
    {out : Option State} (h : tryFact o sel depth f p = (.ok out, p')) :
    f.arity ≠ sel.goal.arity ∧ out = none ∨
      ∃ b, o.unifier.unifyArgs (copyFact o.mode depth f p).1.args sel.goal.args sel.bindings =
          .ok b ∧
        out = b.map (fun b => ⟨sel.rest, b, depth + 1⟩) ∧
        p'.applications = (copyFact o.mode depth f p).2.applications := by
  rw [tryFact] at h
  split at h
  · next harity => exact .inl ⟨harity, by simpa using (congrArg Prod.fst h).symm⟩
  · right
    dsimp only at h
    split at h
    · simp at h
    all_goals
      next hunify =>
      obtain ⟨rfl, rfl⟩ := by simpa using h
      exact ⟨_, hunify, rfl, rfl⟩

theorem tryRule_ok {o : Options} {sel : Selection} {depth : Nat} {r : Rule} {p p' : Progress}
    {out : Option State} (h : tryRule o sel depth r p = (.ok out, p')) :
    r.head.arity ≠ sel.goal.arity ∧ out = none ∨
      ∃ b, o.unifier.unifyArgs (copyRule o.mode depth r p).1.head.args sel.goal.args sel.bindings =
          .ok b ∧
        out = b.map (fun b => ⟨(copyRule o.mode depth r p).1.body ++ sel.rest, b, depth + 1⟩) ∧
        p'.applications = (copyRule o.mode depth r p).2.applications := by
  rw [tryRule] at h
  split at h
  · next harity => exact .inl ⟨harity, by simpa using (congrArg Prod.fst h).symm⟩
  · right
    dsimp only at h
    split at h
    · simp at h
    all_goals
      next hunify =>
      obtain ⟨rfl, rfl⟩ := by simpa using h
      exact ⟨_, hunify, rfl, rfl⟩

theorem successor_of_attempts {t : Task} {strategy : Strategy} {s s' : State} {p : Progress}
    {sel : Selection} (hsel : Selects t strategy s sel) (hneg : sel.goal.negated = false)
    (hbuiltin : isBuiltin sel.goal.predicate = false) {attempt : Progress → Attempt}
    (hmem : attempt ∈ attempts t sel s.depth) (h : (attempt p).1 = .ok (some s')) :
    Successor t strategy s p s' := by
  rcases List.mem_append.mp hmem with hfact | hrule
  · obtain ⟨f, hf, rfl⟩ := List.mem_map.mp hfact
    rcases tryFact_ok (Prod.ext h rfl) with ⟨_, hnone⟩ | ⟨b, hunify, hs', _⟩
    · simp at hnone
    · obtain ⟨c, rfl, rfl⟩ := Option.map_eq_some_iff.mp hs'.symm
      exact .fact hsel hneg hbuiltin hf hunify
  · obtain ⟨r, hr, rfl⟩ := List.mem_map.mp hrule
    rcases tryRule_ok (Prod.ext h rfl) with ⟨_, hnone⟩ | ⟨b, hunify, hs', _⟩
    · simp at hnone
    · obtain ⟨c, rfl, rfl⟩ := Option.map_eq_some_iff.mp hs'.symm
      exact .rule hsel hneg hbuiltin hr hunify

theorem depth_of_attempts {t : Task} {sel : Selection} {depth : Nat} {attempt : Progress → Attempt}
    (hmem : attempt ∈ attempts t sel depth) {p : Progress} {s : State}
    (h : (attempt p).1 = .ok (some s)) : s.depth = depth + 1 := by
  rcases List.mem_append.mp hmem with hfact | hrule
  · obtain ⟨f, _, rfl⟩ := List.mem_map.mp hfact
    rcases tryFact_ok (Prod.ext h rfl) with ⟨_, hnone⟩ | ⟨b, _, hs, _⟩
    · simp at hnone
    · obtain ⟨c, _, rfl⟩ := Option.map_eq_some_iff.mp hs.symm
      rfl
  · obtain ⟨r, _, rfl⟩ := List.mem_map.mp hrule
    rcases tryRule_ok (Prod.ext h rfl) with ⟨_, hnone⟩ | ⟨b, _, hs, _⟩
    · simp at hnone
    · obtain ⟨c, _, rfl⟩ := Option.map_eq_some_iff.mp hs.symm
      rfl

/-! ## What the results of a walk have in common -/

/-- Every result of a walk was there before or has the property. -/
def Walk.Yields (old : List Bindings) (Q : Bindings → Prop) : Walk → Prop
  | .more f | .enough f => ∀ r ∈ f.results, r ∈ old ∨ Q r
  | .failed _ _ => True

theorem yields_walkAttempts {Q : Bindings → Prop} {go : State → Found → Walk}
    {as : List (Progress → Attempt)} {old : List Bindings} (hgrows : ∀ s f, (go s f).Grows f)
    (has : ∀ a ∈ as, ∀ p, p.applications ≤ (a p).2.applications) (f : Found)
    (hgo : ∀ a ∈ as, ∀ f' s p, f.Before f' → a f'.progress = (.ok (some s), p) →
      (go s { f' with progress := p }).Yields f'.results Q)
    (hf : ∀ r ∈ f.results, r ∈ old ∨ Q r) : (walkAttempts go as f).Yields old Q := by
  induction as generalizing f with
  | nil => exact hf
  | cons a as ih =>
      have hfirst := has a List.mem_cons_self f.progress
      have hrest : ∀ f₁ : Found, f.Before f₁ → (∀ r ∈ f₁.results, r ∈ old ∨ Q r) →
          (walkAttempts go as f₁).Yields old Q := by
        intro f₁ hf₁
        exact ih (fun b hb => has b (List.mem_cons_of_mem _ hb)) f₁ fun b hb f' s p hf' =>
          hgo b (List.mem_cons_of_mem _ hb) f' s p (hf₁.trans hf')
      rw [walkAttempts]
      split
      · trivial
      · next p hattempt =>
        rw [hattempt] at hfirst
        exact hrest _ (before_of_applications hfirst) hf
      · next s p hattempt =>
        rw [hattempt] at hfirst
        have hs := hgo a List.mem_cons_self f s p (.refl f) hattempt
        have hgrown := hgrows s { f with progress := p }
        have hstep : ∀ f' : Found, (∀ r ∈ f'.results, r ∈ f.results ∨ Q r) →
            ∀ r ∈ f'.results, r ∈ old ∨ Q r :=
          fun f' hf' r hr => (hf' r hr).elim (hf r) .inr
        split
        · next f' hmore =>
          rw [hmore] at hs hgrown
          exact hrest f' ((before_of_applications hfirst).trans hgrown) (hstep f' hs)
        · next hstop =>
          cases hwalk : go s { f with progress := p } with
          | more f' => exact (hstop f' hwalk).elim
          | enough f' =>
              rw [hwalk] at hs
              exact hstep f' hs
          | failed e p => trivial

/-- Results are justified backwards: by the bindings of a state without goals, and by what justifies
them for a successor. -/
theorem yields_walk {t : Task} {strategy : Strategy} {P : State → Prop}
    {Q : State → Bindings → Prop} (hP : ∀ s p s', P s → Successor t strategy s p s' → P s')
    (hdone : ∀ s, P s → s.goals = [] → Q s s.bindings)
    (hback : ∀ s p s' r, P s → Successor t strategy s p s' → Q s' r → Q s r) (n : Nat)
    (wanted : Option Nat) (s : State) (f : Found) (hs : P s) :
    (walk t n strategy wanted s f).Yields f.results (Q s) := by
  induction n generalizing s f with
  | zero => trivial
  | succ n ih =>
      have hold : ∀ r ∈ f.results, r ∈ f.results ∨ Q s r := fun r hr => .inl hr
      have hnext : ∀ p s' f', Successor t strategy s p s' →
          (walk t n strategy wanted s' f').Yields f'.results (Q s) := by
        intro p s' f' hsucc
        have hs' := ih s' f' (hP s p s' hs hsucc)
        cases hwalk : walk t n strategy wanted s' f' with
        | more g | enough g =>
            rw [hwalk] at hs'
            exact fun r hr => (hs' r hr).imp_right (hback s p s' r hs hsucc)
        | failed e q => trivial
      refine walk_cases (motive := fun w => w.Yields f.results (Q s)) ?_ ?_ ?_ ?_ ?_ ?_ ?_ ?_
      · intro e p
        trivial
      · intro hgoals
        have hadded : ∀ r ∈ s.bindings :: f.results, r ∈ f.results ∨ Q s r := by
          intro r hr
          rcases List.mem_cons.mp hr with rfl | hr
          · exact .inr (hdone s hs hgoals)
          · exact .inl hr
        rw [Found.add]
        split <;> exact hadded
      · intro g gs p _ _ _
        exact hold
      · intro sel p inside _ _ _ _
        exact hold
      · intro sel p inside hsel hneg _ _
        exact hnext p _ _ (.negated hsel hneg)
      · intro sel p _ _ _ _ _
        exact hold
      · intro sel b p hsel hneg hbuiltin hsolve _
        exact hnext p _ _ (.builtin hsel hneg hbuiltin hsolve)
      · intro sel p hsel hneg hbuiltin _
        refine yields_walkAttempts (grows_walk t n strategy wanted)
          (fun a => applications_le_attempts) _ (fun a ha f' s' p' _ hattempt => ?_) hold
        exact hnext f'.progress s' _
          (successor_of_attempts hsel hneg hbuiltin ha (congrArg Prod.fst hattempt))

end Clausal.Search
