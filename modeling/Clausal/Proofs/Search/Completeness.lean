import Clausal.Proofs.Search.Apart

/-!
# Resolution is complete when it returns

A substitution under which all goals of a state are derivable is followed through the search. It
solves the bindings of the state, so nothing that it makes equal is refused: neither propagation nor
the unification with the clause of the next derivation step. What it does to the variables of the
copy of that clause is chosen anew. In the end it solves the bindings of a result.
-/

namespace Clausal

/-- Neither negated nor numeric: of the built-in predicates only `=` is allowed. -/
def Goal.IsDefinite (g : Goal) : Prop :=
  g.negated = false ∧ (isBuiltin g.predicate = true → g.predicate = "=")

instance : DecidablePred Goal.IsDefinite := fun g =>
  inferInstanceAs
    (Decidable (g.negated = false ∧ (isBuiltin g.predicate = true → g.predicate = "=")))

/-- All goals in the bodies of rules are definite. -/
def KnowledgeBase.IsDefinite (kb : KnowledgeBase) : Prop :=
  ∀ r ∈ kb.rules.all, ∀ g ∈ r.body, g.IsDefinite

instance : DecidablePred KnowledgeBase.IsDefinite := fun kb =>
  inferInstanceAs (Decidable (∀ r ∈ kb.rules.all, ∀ g ∈ r.body, g.IsDefinite))

/-! ## Bindings with a solution -/

namespace Bindings

theorem grown_empty (P : Term → Prop) : (∅ : Bindings).Grown P ∅ :=
  ⟨acyclic_empty, .refl _, keys_empty _, values_empty _⟩

namespace Grown

variable {k : Nat} {b₀ b c : Bindings} {θ η : String → Term}

/-- Whether bindings are solved is seen on old names. -/
theorem solvedBy_congr {Q : Term → Prop} (h : b.Grown (Term.InState Q k) b₀)
    (hη : ∀ x, IsOld k x → η x = θ x) (hθ : b.SolvedBy θ) : b.SolvedBy η := by
  intro x t hx
  rw [hη x ((h.keys x t hx).2 x (by simp [Term.vars])), (h.values x t hx).apply_eq hη]
  exact hθ x t hx

variable {u : Unifier} {o : Option Bindings} (h : b.Grown (Term.InState Term.IsFinite k) b₀)
  (hu : u.occursCheck = true) (hθ : b.SolvedBy θ)

include h hu hθ

/-- Unification that does not meet a fault finds bindings with the same solution. -/
theorem unify_of_solvedBy {s t : Term} (hs : s.InState Term.IsFinite k)
    (ht : t.InState Term.IsFinite k) (hst : s.apply θ = t.apply θ)
    (hunify : u.unify s t b = .ok o) :
    ∃ c, o = some c ∧ c.Grown (Term.InState Term.IsFinite k) b₀ ∧ c.SolvedBy θ := by
  obtain ⟨c, hrun, hc⟩ := Unifier.exists_run_eq_unified hu h.acyclic hs.1 ht.1
    (fun x v hv => (h.values x v hv).1) hθ hst
  obtain rfl : some c = o := Unify.eq_of_conclude hrun hunify
  exact ⟨c, rfl, h.of_unify (Term.hereditary_isFinite.inState k) hu hs ht hunify, hc⟩

theorem unifyArgs_of_solvedBy {ss ts : List Term} (hss : ∀ s ∈ ss, s.InState Term.IsFinite k)
    (hts : ∀ t ∈ ts, t.InState Term.IsFinite k)
    (hst : ss.map (Term.apply θ) = ts.map (Term.apply θ)) (hunify : u.unifyArgs ss ts b = .ok o) :
    ∃ c, o = some c ∧ c.Grown (Term.InState Term.IsFinite k) b₀ ∧ c.SolvedBy θ := by
  obtain ⟨c, hrun, hc⟩ := Unifier.exists_runArgs_eq_unified hu h.acyclic (fun s hs => (hss s hs).1)
    (fun t ht => (hts t ht).1) (fun x v hv => (h.values x v hv).1) hθ hst
  obtain rfl : some c = o := Unify.eq_of_conclude hrun hunify
  exact ⟨c, rfl, h.of_unifyArgs (Term.hereditary_isFinite.inState k) hu hss hts hunify, hc⟩

end Grown

end Bindings

namespace Search

/-! ## States with a solution -/

/-- A state of a search in a definite program, before the copies with a number are made. -/
structure State.Regular (b₀ : Bindings) (k : Nat) (s : State) : Prop
    extends s.Apart Term.IsFinite b₀ k where
  definite : ∀ g ∈ s.goals, g.IsDefinite

theorem State.Regular.mono {b₀ : Bindings} {j : Nat} {s : State} (h : s.Regular b₀ j) {k : Nat}
    (hjk : j ≤ k) : s.Regular b₀ k :=
  ⟨h.toApart.mono hjk, h.definite⟩

/-- The substitution solves the bindings and makes the goals derivable by exact instances. -/
structure State.SolvedBy (kb : KnowledgeBase) (s : State) (θ : String → Term) : Prop where
  bindings : s.bindings.SolvedBy θ
  goals : ∀ g ∈ s.goals, Derivable kb Eq (g.apply θ)

variable {t : Task} {strategy : Strategy} {s : State} {sel : Selection} {k : Nat} {b₀ : Bindings}
  {θ η : String → Term}

/-- The only fact of a derivable goal has the goal as an instance. -/
theorem OnlyFact.exists_args_eq {kb : KnowledgeBase} {g : Goal} {f : Fact} (h : OnlyFact kb g f)
    (hg : Derivable kb Eq (g.apply θ)) :
    ∃ σ, f.args.map (Term.apply σ) = g.args.map (Term.apply θ) := by
  rcases hg.of_user h.user with ⟨f', hf', σ, hargs⟩ | ⟨r, hr, _⟩
  · have hmem : f' ∈ kb.factsFor g.predicate := hf'
    rw [h.facts, List.mem_singleton] at hmem
    rw [hmem, List.forall₂_eq_eq_eq] at hargs
    exact ⟨σ, hargs⟩
  · have hmem : r ∈ kb.rulesFor g.predicate := hr
    simp [h.rules] at hmem

theorem OnlyFact.args_eq {kb : KnowledgeBase} {g : Goal} {f : Fact} (h : OnlyFact kb g f)
    (hf : f.isGround = true) (hg : Derivable kb Eq (g.apply θ)) :
    f.args.map (Term.apply θ) = g.args.map (Term.apply θ) := by
  obtain ⟨σ, hσ⟩ := h.exists_args_eq hg
  rw [← hσ, Fact.map_apply_of_isGround hf, Fact.map_apply_of_isGround hf]

/-- Propagation keeps a solution of the goals. -/
theorem propagate_of_solvedBy {kb : KnowledgeBase} {u : Unifier} (hu : u.occursCheck = true)
    (hkb : kb.All Term.IsPlain) {gs : List Goal} {b : Bindings}
    (hb : b.Grown (Term.InState Term.IsFinite k) b₀) (hθ : b.SolvedBy θ)
    (hgs : ∀ g ∈ gs, g.All (Term.InState Term.IsFinite k) ∧ Derivable kb Eq (g.apply θ))
    {o : Option Bindings} (h : propagate kb u gs b = .ok o) :
    ∃ c, o = some c ∧ c.Grown (Term.InState Term.IsFinite k) b₀ ∧ c.SolvedBy θ := by
  have hunify : ∀ g ∈ gs, ∀ f, OnlyFact kb g f → f.isGround = true → ∀ (b : Bindings) o,
      b.Grown (Term.InState Term.IsFinite k) b₀ ∧ b.SolvedBy θ →
      u.unifyArgs f.args g.args b = .ok o → ∃ c, o = some c ∧
      c.Grown (Term.InState Term.IsFinite k) b₀ ∧ c.SolvedBy θ := by
    intro g hg f honly hground b o hb hunify
    have hmem : f ∈ kb.factsFor g.predicate := by simp [honly.facts]
    have hplain : f.All Term.IsPlain := hkb.1 f (KnowledgeBase.mem_facts_of_mem_factsFor hmem)
    exact hb.1.unifyArgs_of_solvedBy hu hb.2 (fun a ha => (hplain a ha).inState k) (hgs g hg).1
      (honly.args_eq hground (hgs g hg).2) hunify
  have hcases := propagate_cases
    (motive := fun c => c.Grown (Term.InState Term.IsFinite k) b₀ ∧ c.SolvedBy θ) h ⟨hb, hθ⟩ ?_
  · rcases hcases with hsome | ⟨_, g, hg, f, b', honly, hb', hrefused⟩
    · exact hsome
    · exfalso
      rcases hrefused with harity | ⟨hground, hnone⟩
      · obtain ⟨σ, hσ⟩ := honly.exists_args_eq (hgs g hg).2
        exact harity (by simpa [Fact.arity, Goal.arity] using congrArg List.length hσ)
      · obtain ⟨c, hc, _⟩ := hunify g hg f honly hground b' none hb' hnone
        simp at hc
  · intro g hg f honly hground b' c hb' hc
    obtain ⟨c', hcc, hc'⟩ := hunify g hg f honly hground b' (some c) hb' hc
    obtain rfl : c = c' := by simpa using hcc
    exact hc'

namespace State.SolvedBy

theorem select_ne_none (h : s.SolvedBy t.kb θ) (hu : t.options.unifier.occursCheck = true)
    (hkb : t.kb.All Term.IsPlain) (hs : s.Regular b₀ k) {g : Goal} {gs : List Goal}
    (hgoals : s.goals = g :: gs) :
    select t.kb t.options.unifier strategy g gs s.bindings ≠ .ok none := by
  intro hselect
  rcases select_ok hselect with ⟨_, hprop⟩ | ⟨c, i, _, hsome⟩
  · obtain ⟨c, hc, _⟩ := propagate_of_solvedBy hu hkb hs.bindings h.bindings
      (hgoals ▸ fun g' hg' => ⟨hs.goals g' hg', h.goals g' hg'⟩) hprop
    simp at hc
  · simp at hsome

theorem of_selects (h : s.SolvedBy t.kb θ) (hsel : Selects t strategy s sel)
    (hu : t.options.unifier.occursCheck = true) (hkb : t.kb.All Term.IsPlain)
    (hs : s.Regular b₀ k) :
    sel.bindings.Grown (Term.InState Term.IsFinite k) b₀ ∧ sel.bindings.SolvedBy θ := by
  rcases hsel.bindings_eq with heq | hprop
  · rw [heq]
    exact ⟨hs.bindings, h.bindings⟩
  · obtain ⟨c, hc, hregular, hsolved⟩ := propagate_of_solvedBy hu hkb hs.bindings h.bindings
      (fun g hg => ⟨hs.goals g hg, h.goals g hg⟩) hprop
    obtain rfl : sel.bindings = c := by simpa using hc
    exact ⟨hregular, hsolved⟩

/-- The successor by `=` has the same solution. -/
theorem of_builtin (h : s.SolvedBy t.kb θ) (hsel : Selects t strategy s sel)
    (hu : t.options.unifier.occursCheck = true) (hkb : t.kb.All Term.IsPlain) (hs : s.Regular b₀ k)
    (hbuiltin : isBuiltin sel.goal.predicate = true) {o : Option Bindings}
    (hsolve : Builtin.solve t.options.unifier sel.goal sel.bindings = .ok o) :
    ∃ b, o = some b ∧ State.Regular b₀ k ⟨sel.rest, b, s.depth + 1⟩ ∧
      State.SolvedBy t.kb ⟨sel.rest, b, s.depth + 1⟩ θ := by
  obtain ⟨hregular, hsolved⟩ := h.of_selects hsel hu hkb hs
  have heq : sel.goal.predicate = "=" := (hs.definite _ hsel.goal_mem).2 hbuiltin
  obtain ⟨a, b, hargs, hab⟩ := (h.goals _ hsel.goal_mem).of_equal heq
  obtain ⟨l, r, hlr⟩ : ∃ l r, sel.goal.args = [l, r] :=
    List.length_eq_two.mp (by simpa [Goal.apply] using congrArg List.length hargs)
  have hst : l.apply θ = r.apply θ := by
    simp only [Goal.apply, hlr, List.map_cons, List.map_nil, List.cons.injEq, and_true] at hargs
    rw [hargs.1, hargs.2, hab]
  have hgoal := hs.goals _ hsel.goal_mem
  have hresolve : ∀ a ∈ sel.goal.args, (sel.bindings.resolve a).InState Term.IsFinite k :=
    fun a ha => hregular.values.resolve (hgoal a ha)
  rw [Builtin.solve, hlr] at hsolve
  dsimp only at hsolve
  rw [Builtin.solveResolved, if_pos heq] at hsolve
  obtain ⟨c, hc, hcr, hcs⟩ := hregular.unify_of_solvedBy hu hsolved (hresolve l (by simp [hlr]))
    (hresolve r (by simp [hlr])) (hregular.acyclic.resolve_apply_eq hsolved hst) hsolve
  refine ⟨c, hc, ⟨⟨hcr, fun g hg => ?_⟩, fun g hg => ?_⟩, ⟨hcs, fun g hg => ?_⟩⟩
  · exact hs.goals g (hsel.mem_of_mem_rest hg)
  · exact hs.definite g (hsel.mem_of_mem_rest hg)
  · exact h.goals g (hsel.mem_of_mem_rest hg)

/-- A copy of a clause whose instance is the goal leads to a successor with a solution, which agrees
with the old one on the old names. -/
theorem of_clause (h : s.SolvedBy t.kb θ) (hsel : Selects t strategy s sel)
    (hu : t.options.unifier.occursCheck = true) (hkb : t.kb.All Term.IsPlain) {j : Nat}
    (hs : s.Regular b₀ j) (hjk : j ≤ k) (hη : ∀ x, IsOld j x → η x = θ x) {head : List Term}
    (body : List Goal) (hhead : ∀ a ∈ head, a.InState Term.IsFinite k)
    (hbody : ∀ g ∈ body, g.IsDefinite ∧ g.All (Term.InState Term.IsFinite k))
    (hargs : head.map (Term.apply η) = sel.goal.args.map (Term.apply θ))
    (hderivable : ∀ g ∈ body, Derivable t.kb Eq (g.apply η)) {o : Option Bindings}
    (hunify : t.options.unifier.unifyArgs head sel.goal.args sel.bindings = .ok o) :
    ∃ b, o = some b ∧ State.Regular b₀ k ⟨body ++ sel.rest, b, s.depth + 1⟩ ∧
      State.SolvedBy t.kb ⟨body ++ sel.rest, b, s.depth + 1⟩ η := by
  obtain ⟨hregular, hsolved⟩ := h.of_selects hsel hu hkb hs
  have hgoal := hs.goals _ hsel.goal_mem
  have hsame : sel.goal.args.map (Term.apply η) = sel.goal.args.map (Term.apply θ) :=
    List.map_congr_left fun a ha => (hgoal a ha).apply_eq hη
  obtain ⟨c, hc, hcr, hcs⟩ := (hregular.mono fun _ h => h.mono hjk).unifyArgs_of_solvedBy hu
    (hregular.solvedBy_congr hη hsolved) hhead (hgoal.mono hjk) (hargs.trans hsame.symm) hunify
  refine ⟨c, hc, ⟨⟨hcr, fun g hg => ?_⟩, fun g hg => ?_⟩, ⟨hcs, fun g hg => ?_⟩⟩
  all_goals rcases List.mem_append.mp hg with hg | hg
  · exact (hbody g hg).2
  · exact (hs.goals g (hsel.mem_of_mem_rest hg)).mono hjk
  · exact (hbody g hg).1
  · exact hs.definite g (hsel.mem_of_mem_rest hg)
  · exact hderivable g hg
  · have hrest := hsel.mem_of_mem_rest hg
    rw [(hs.goals g hrest).apply_eq hη]
    exact h.goals g hrest

end State.SolvedBy

theorem isDefinite_of_mem_copyRule {mode : RenamingMode} {depth : Nat} {r : Rule} {p : Progress}
    (hr : ∀ g ∈ r.body, g.IsDefinite) {g : Goal} (hg : g ∈ (copyRule mode depth r p).1.body) :
    g.IsDefinite := by
  obtain ⟨g', hg', rfl⟩ := List.mem_map.mp hg
  exact hr g' hg'

/-- The last step of the derivation of the selected goal is an attempt of the search. Whenever it is
made, it leads to a state with a solution. -/
theorem State.SolvedBy.exists_attempt (h : s.SolvedBy t.kb θ) (hsel : Selects t strategy s sel)
    (hu : t.options.unifier.occursCheck = true) (hkb : t.kb.All Term.IsPlain)
    (hdef : t.kb.IsDefinite) (huser : isBuiltin sel.goal.predicate = false) :
    ∃ attempt ∈ attempts t sel s.depth, ∀ p o p',
      s.Regular b₀ (p.fresh t.options.mode s.depth) → attempt p = (.ok o, p') →
      ∃ s', o = some s' ∧ s'.depth = s.depth + 1 ∧
        s'.Regular b₀ (p'.fresh t.options.mode (s.depth + 1)) ∧
        ∃ η : String → Term, s'.SolvedBy t.kb η ∧ ∀ x, HashFree x → η x = θ x := by
  rcases (h.goals _ hsel.goal_mem).of_user huser with ⟨f, hf, σ, hargs⟩ | ⟨r, hr, σ, hargs, hbody⟩
  · rw [List.forall₂_eq_eq_eq] at hargs
    refine ⟨tryFact t.options sel s.depth f, List.mem_append_left _ (List.mem_map_of_mem hf), ?_⟩
    intro p o p' hs hattempt
    have hplain := hkb.1 f (KnowledgeBase.mem_facts_of_mem_factsFor hf)
    have hle := fresh_le_copyFact t.options.mode s.depth f p
    have hregular := inState_copyFact Term.copied_isFinite hplain t.options.mode s.depth p
    obtain ⟨η, hold, hhead⟩ := exists_extension_copyFact (fun a ha => (hplain a ha).2)
      t.options.mode s.depth p θ σ
    rcases tryFact_ok hattempt with ⟨harity, _⟩ | ⟨b, hunify, rfl, happ⟩
    · have hlen := congrArg List.length hargs
      exact (harity (by simpa [Fact.arity, Goal.arity, Goal.apply] using hlen)).elim
    · obtain ⟨c, rfl, hcr, hcs⟩ := h.of_clause hsel hu hkb hs hle hold [] hregular
        (by simp) (hhead.trans hargs) (by simp) hunify
      exact ⟨_, rfl, rfl, hcr.mono (fresh_mono (Nat.le_refl _) happ.ge), η, hcs,
        fun x hx => hold x (.inl hx)⟩
  · rw [List.forall₂_eq_eq_eq] at hargs
    refine ⟨tryRule t.options sel s.depth r, List.mem_append_right _ (List.mem_map_of_mem hr), ?_⟩
    intro p o p' hs hattempt
    have hmem := KnowledgeBase.mem_rules_of_mem_rulesFor hr
    have hplain := hkb.2 r hmem
    have hle := (fresh_lt_nextSuffix t.options.mode s.depth p).le
    obtain ⟨hregular, hgoals⟩ :=
      inState_copyRule Term.copied_isFinite hplain t.options.mode s.depth p
    obtain ⟨η, hold, hhead, hcopy⟩ := exists_extension_copyRule (hplain.mono fun _ h => h.2)
      t.options.mode s.depth p θ σ
    rcases tryRule_ok hattempt with ⟨harity, _⟩ | ⟨b, hunify, rfl, happ⟩
    · have hlen := congrArg List.length hargs
      exact (harity (by simpa [Fact.arity, Goal.arity, Goal.apply] using hlen)).elim
    · have hderivable : ∀ g ∈ (copyRule t.options.mode s.depth r p).1.body,
          Derivable t.kb Eq (g.apply η) := by
        intro g hg
        have himage := List.mem_map_of_mem (f := Goal.apply η) hg
        rw [hcopy] at himage
        obtain ⟨g', hg', heq⟩ := List.mem_map.mp himage
        exact heq ▸ hbody g' hg'
      obtain ⟨c, rfl, hcr, hcs⟩ := h.of_clause hsel hu hkb hs hle hold _ hregular
        (fun g hg => ⟨isDefinite_of_mem_copyRule (hdef r hmem) hg, hgoals g hg⟩) (hhead.trans hargs)
        hderivable hunify
      exact ⟨_, rfl, rfl, hcr.mono (fresh_mono (Nat.le_refl _) happ.ge), η, hcs,
        fun x hx => hold x (.inl hx)⟩

/-- Bindings of which a substitution is an instance, as far as names without `#` go. -/
def Generalizes (r : Bindings) (θ : String → Term) : Prop :=
  r.Acyclic ∧ ∃ ρ : String → Term, ∀ x, HashFree x → θ x = (r.image x).apply ρ

theorem Generalizes.congr {r : Bindings} (h : Generalizes r η) (hη : ∀ x, HashFree x → η x = θ x) :
    Generalizes r θ := by
  obtain ⟨hr, ρ, hρ⟩ := h
  exact ⟨hr, ρ, fun x hx => (hη x hx).symm.trans (hρ x hx)⟩

/-- A walk that comes to its end from a state with a solution finds a result of which the solution
is an instance. -/
theorem exists_generalizes_of_walk (hu : t.options.unifier.occursCheck = true)
    (hkb : t.kb.All Term.IsPlain) (hdef : t.kb.IsDefinite) {n : Nat} {wanted : Option Nat}
    {f f' : Found} (hs : s.Regular b₀ (f.progress.fresh t.options.mode s.depth))
    (hθ : s.SolvedBy t.kb θ) (h : walk t n strategy wanted s f = .more f') :
    ∃ r ∈ f'.results, Generalizes r θ := by
  induction n generalizing s f f' θ with
  | zero => simp [walk] at h
  | succ n ih =>
      have hpositive : ∀ {sel : Selection}, Selects t strategy s sel → sel.goal.negated ≠ true := by
        intro sel hsel hneg
        simp [(hs.definite _ hsel.goal_mem).1] at hneg
      refine walk_cases (motive := fun w => w = .more f' → ∃ r ∈ f'.results, Generalizes r θ)
        ?_ ?_ ?_ ?_ ?_ ?_ ?_ ?_ h
      · intro e p hfailed
        simp at hfailed
      · intro _ hadd
        rw [Found.add] at hadd
        split at hadd
        · simp at hadd
        · obtain rfl := Walk.more.inj hadd
          refine ⟨s.bindings, List.mem_cons_self, hs.bindings.acyclic, θ, fun x _ => ?_⟩
          exact (hs.bindings.acyclic.apply_image hθ.bindings (.var x)).symm
      · intro g gs p hgoals hselect _ _
        exact (hθ.select_ne_none hu hkb hs hgoals hselect).elim
      · intro sel p inside hsel hneg _ _ _
        exact (hpositive hsel hneg).elim
      · intro sel p inside hsel hneg _ _ _
        exact (hpositive hsel hneg).elim
      · intro sel p hsel _ hbuiltin hsolve _ _
        obtain ⟨b, hb, _⟩ := hθ.of_builtin hsel hu hkb hs hbuiltin hsolve
        simp at hb
      · intro sel b p hsel _ hbuiltin hsolve hp hwalk
        obtain ⟨b', hb, hregular, hsolved⟩ := hθ.of_builtin hsel hu hkb hs hbuiltin hsolve
        obtain rfl : b = b' := by simpa using hb
        exact ih (f := { f with progress := p })
          (hregular.mono (fresh_mono (Nat.le_succ _) (Nat.le_of_eq hp.symm))) hsolved hwalk
      · intro sel p hsel _ hbuiltin hp hwalk
        -- The attempt may be made after others, when more copies have been numbered.
        obtain ⟨attempt, hmem, hattempt⟩ := hθ.exists_attempt hsel hu hkb hdef hbuiltin
        obtain ⟨f₁, o, p₁, hbefore, hmade, hgo⟩ := exists_attempt_of_mem
          (fun s f => grows_walk t n strategy wanted s f)
          (fun a => applications_le_attempts) hwalk hmem
        have hlater : f.progress.applications ≤ f₁.progress.applications :=
          (Nat.le_of_eq hp.symm).trans hbefore.applications
        obtain ⟨s', rfl, hdepth, hregular, η, hsolved, hη⟩ := hattempt f₁.progress o p₁
          (hs.mono (fresh_mono (Nat.le_refl _) hlater)) hmade
        obtain ⟨f₂, hwalk₂, hresults⟩ := hgo s' rfl
        obtain ⟨r, hr, hgeneral⟩ :=
          ih (f := { f₁ with progress := p₁ }) (hdepth ▸ hregular) hsolved hwalk₂
        exact ⟨r, hresults hr, hgeneral.congr hη⟩

end Search

/-- If the search of a definite program returns, then every substitution under which the goals are
derivable by exact instances is an instance of one of the results. -/
theorem Evaluator.exists_mem_solve_generalizes {ev : Evaluator}
    (hu : ev.options.unifier.occursCheck = true) (hkb : ev.kb.All Term.IsPlain)
    (hdef : ev.kb.IsDefinite) {goals : List Goal}
    (hgoals : ∀ g ∈ goals, g.All Term.IsPlain ∧ g.IsDefinite) {results : List Bindings}
    (h : (ev.solve goals ∅).1 = .ok results) {θ : String → Term}
    (hθ : ∀ g ∈ goals, Derivable ev.kb Eq (g.apply θ)) :
    ∃ r ∈ results, ∃ ρ : String → Term, ∀ g ∈ goals, ∀ x ∈ g.vars,
      ∃ t, r.substitute? (.var x) = some t ∧ θ x = t.apply ρ := by
  obtain ⟨n, f, hwalk, rfl⟩ := Search.walk_of_solve h
  have hregular : ∀ k, Search.State.Regular ∅ k ⟨goals, ∅, 0⟩ := fun k =>
    ⟨⟨Bindings.grown_empty _, fun g hg a ha => ((hgoals g hg).1 a ha).inState k⟩,
      fun g hg => (hgoals g hg).2⟩
  obtain ⟨r, hr, hacyclic, ρ, hρ⟩ := Search.exists_generalizes_of_walk hu hkb hdef (hregular _)
    ⟨Bindings.solvedBy_empty θ, hθ⟩ hwalk
  refine ⟨r, List.mem_reverse.mpr hr, ρ, fun g hg x hx => ?_⟩
  obtain ⟨a, ha, hxa⟩ := Term.mem_varsAll.mp hx
  exact ⟨r.image x, hacyclic.substitute?_eq (.var x), hρ x (((hgoals g hg).1 a ha).2 x hxa)⟩

/-- A recursive program: paths in a graph with two edges. -/
def Evaluator.reaching : Evaluator :=
  { kb := (((KnowledgeBase.empty.addFact ⟨"edge", [.atom "a", .atom "b"]⟩).addFact
        ⟨"edge", [.atom "b", .atom "c"]⟩).addRule
        ⟨⟨"path", [.var "X", .var "Y"]⟩, [⟨"edge", [.var "X", .var "Y"], false⟩]⟩).addRule
        ⟨⟨"path", [.var "X", .var "Z"]⟩,
          [⟨"edge", [.var "X", .var "Y"], false⟩, ⟨"path", [.var "Y", .var "Z"], false⟩]⟩
    options := { limit := .whole 9, mode := .depth } }

def Evaluator.reachingQuery : List Goal :=
  [⟨"path", [.atom "a", .var "W"], false⟩, ⟨"=", [.var "V", .compound "f" [.var "W"]], false⟩]

theorem Evaluator.exists_mem_solve_generalizes_reaching :
    let θ : String → Term := fun x => if x = "W" then .atom "c" else .compound "f" [.atom "c"]
    (∀ g ∈ reachingQuery, Derivable reaching.kb Eq (g.apply θ)) ∧
      ∃ results, (reaching.solve reachingQuery ∅).1 = .ok results ∧ results.length = 2 ∧
        ∃ r ∈ results, ∃ ρ : String → Term, ∀ g ∈ reachingQuery, ∀ x ∈ g.vars,
          ∃ t, r.substitute? (.var x) = some t ∧ θ x = t.apply ρ := by
  intro θ
  have hfirst : Derivable reaching.kb Eq ⟨"edge", [.atom "a", .atom "b"], false⟩ :=
    .fact (σ := .var) rfl (.head _) (List.forall₂_eq_eq_eq ▸ rfl)
  have hsecond : Derivable reaching.kb Eq ⟨"edge", [.atom "b", .atom "c"], false⟩ :=
    .fact (σ := .var) rfl (.tail _ (.head _)) (List.forall₂_eq_eq_eq ▸ rfl)
  have hshort : Derivable reaching.kb Eq ⟨"path", [.atom "b", .atom "c"], false⟩ := by
    refine .rule (σ := fun x => if x = "X" then .atom "b" else .atom "c") rfl (.head _)
      (List.forall₂_eq_eq_eq ▸ rfl) fun g hg => ?_
    obtain rfl := List.mem_singleton.mp hg
    exact hsecond
  have hlong : Derivable reaching.kb Eq ⟨"path", [.atom "a", .atom "c"], false⟩ := by
    refine .rule (σ := fun x => if x = "X" then .atom "a" else if x = "Y" then .atom "b"
      else .atom "c") rfl (.tail _ (.head _)) (List.forall₂_eq_eq_eq ▸ rfl) fun g hg => ?_
    rcases List.mem_cons.mp hg with rfl | hg
    · exact hfirst
    · obtain rfl := List.mem_singleton.mp hg
      exact hshort
  have hθ : ∀ g ∈ reachingQuery, Derivable reaching.kb Eq (g.apply θ) := by
    intro g hg
    rcases List.mem_cons.mp hg with rfl | hg
    · exact hlong
    · obtain rfl := List.mem_singleton.mp hg
      exact .equal rfl
  have hcount : (reaching.solve reachingQuery ∅).1.toOption.map List.length = some 2 := by
    rw [Search.solve_eq_walk rfl]
    decide +kernel
  obtain ⟨results, hresults, hlength⟩ := Option.map_eq_some_iff.mp hcount
  have hsolve : (reaching.solve reachingQuery ∅).1 = .ok results := by
    cases hout : (reaching.solve reachingQuery ∅).1 <;> simp_all [Except.toOption]
  exact ⟨hθ, results, hsolve, hlength,
    exists_mem_solve_generalizes rfl (by decide) (by decide) (by decide) hsolve hθ⟩

end Clausal
