import Clausal.Proofs.Search.Enumeration
import Clausal.Proofs.Search.Nested

/-!
# Negation as failure

In a definite program the search for one proof is exact: if it comes to its end, then it has
found a proof if and only if some instance of the goals is derivable. So a negated goal holds in
a state exactly if no instance of the goal itself is derivable, and a fault of the inner search
is a fault of the whole one.
-/

namespace Clausal

theorem Goal.isDefinite_positive {g : Goal} (h : isBuiltin g.predicate = false) :
    g.positive.IsDefinite := by
  refine ⟨rfl, fun hbuiltin => ?_⟩
  have hbuiltin : isBuiltin g.predicate = true := hbuiltin
  simp [h] at hbuiltin

namespace Search

variable {t : Task} {strategy : Strategy} {s : State} {p : Progress} {b₀ : Bindings}

/-- Some instance of the goals under the bindings is derivable. -/
def State.Satisfiable (kb : KnowledgeBase) (s : State) : Prop :=
  ∃ θ : String → Term, ∀ g ∈ s.goals, Derivable kb Eq ((g.apply s.bindings.image).apply θ)

theorem State.satisfiable_singleton {kb : KnowledgeBase} {g : Goal} {b : Bindings} {depth : Nat} :
    State.Satisfiable kb ⟨[g], b, depth⟩ ↔ ∃ θ, Derivable kb Eq ((g.apply b.image).apply θ) := by
  simp [State.Satisfiable]

theorem State.Satisfiable.exists_solvedBy {kb : KnowledgeBase} (h : s.Satisfiable kb)
    (hb : s.bindings.Acyclic) : ∃ θ, s.SolvedBy kb θ := by
  obtain ⟨θ, hθ⟩ := h
  refine ⟨fun x => (s.bindings.image x).apply θ, fun x u hx => ?_, fun g hg => ?_⟩
  · rw [← Term.apply_apply, hb.image_of_bound hx]
  · rw [← Goal.apply_apply]
    exact hθ g hg

theorem State.Answer.satisfiable {kb : KnowledgeBase} {Ts : List Skeleton} {r : Bindings}
    (h : s.Answer kb strategy Ts r) (hb : s.bindings.Acyclic) : s.Satisfiable kb := by
  obtain ⟨Ds, hproved⟩ := h.sound h.acyclic.solvedBy_image
  refine ⟨r.image, fun g hg => ?_⟩
  rw [Goal.apply_image hb hproved.bindings]
  obtain ⟨D, _, hD⟩ := exists_left_of_mem hproved.goals (List.mem_map_of_mem hg)
  exact hD.derivable

/-- The search for one proof from a state with definite goals. -/
theorem search_first_eq_nil_iff (hu : t.options.unifier.occursCheck = true)
    (hkb : t.kb.All (Term.InProgram Term.IsExact)) (hdef : t.kb.IsDefinite)
    (hs : s.Apart Term.IsExact b₀ (p.fresh t.options.mode s.depth))
    (hgoals : ∀ g ∈ s.goals, g.IsDefinite) {results : List Bindings}
    (h : (search t.first strategy s p).outcome = .ok results) :
    results = [] ↔ ¬ s.Satisfiable t.kb := by
  obtain ⟨n, hn⟩ := (outcome_eventually_eq t.first strategy s p).exists
  rw [hn] at h
  change (walk t.first n strategy (some 1) s ⟨[], p⟩).report.outcome = _ at h
  cases hwalk : walk t.first n strategy (some 1) s ⟨[], p⟩ with
  | more f =>
      have hnone : f.results = [] := results_of_walk_more rfl hwalk
      rw [hwalk] at h
      obtain rfl : results = [] := by simpa [Walk.report, hnone] using h.symm
      refine ⟨fun _ hsat => ?_, fun _ => rfl⟩
      obtain ⟨θ, hθ⟩ := hsat.exists_solvedBy hs.bindings.acyclic
      have hregular : s.Regular b₀ (p.fresh t.options.mode s.depth) :=
        ⟨hs.imp fun _ => Term.isFinite_of_isExact, hgoals⟩
      obtain ⟨r, hr, _⟩ := exists_generalizes_of_walk (t := t.first) (f := ⟨[], p⟩) hu
        (hkb.mono fun _ => Term.InProgram.isPlain) hdef hregular hθ hwalk
      simp [hnone] at hr
  | enough f =>
      have hcounts := counts_walk t.first n strategy (some 1) s ⟨[], p⟩ rfl
      have hpos : t.kb.IsPositive := fun r hr g hg => (hdef r hr g hg).1
      have hlists := lists_walk (t := t.first) (f := ⟨[], p⟩) hu hkb hpos n strategy (some 1) hs
        fun g hg => (hgoals g hg).1
      rw [hwalk] at h hcounts hlists
      have hsome : 1 ≤ f.results.length := by simpa [Walk.Counts, Machine.isEnough] using hcounts
      obtain rfl : f.results.reverse = results := by simpa [Walk.report] using h
      obtain ⟨r, hr⟩ := List.exists_mem_of_length_pos hsome
      constructor
      · intro hnil
        simp [List.reverse_eq_nil_iff.mp hnil] at hr
      · intro hunsat
        rcases hlists r hr with hold | ⟨Ts, hanswer⟩
        · simp at hold
        · exact (hunsat (hanswer.satisfiable hs.bindings.acyclic)).elim
  | failed e q =>
      rw [hwalk] at h
      simp [Walk.report] at h

end Search

namespace Evaluator

open Search

/-- A negated goal of a definite program that is resolved in a state: a fault of the inner search is
a fault of the whole search. Otherwise the state has a successor, under the same bindings, if and
only if no instance of the goal under the bindings is derivable. -/
theorem negation_exact {ev : Evaluator} (hu : ev.options.unifier.occursCheck = true)
    (hkb : ev.kb.All (Term.InProgram Term.IsExact)) (hdef : ev.kb.IsDefinite) {goals : List Goal}
    (hgoals : ∀ g ∈ goals, g.All (Term.InProgram Term.IsExact)) {b₀ : Bindings} (hb₀ : b₀.Acyclic)
    (hentries : ∀ x u, b₀.get? x = some u → HashFree x ∧ u.InProgram Term.IsExact)
    {m m₁ : Machine} (hm : ev.Reached goals b₀ m) {s : State} {frames : List Frame}
    (htop : m.level.frames = .state s :: frames) {sel : Selection}
    (hsel : Selects ⟨ev.kb, ev.options, none⟩ m.level.strategy s sel)
    (hneg : sel.goal.negated = true) (huser : isBuiltin sel.goal.predicate = false)
    (hstep : m.step ⟨ev.kb, ev.options, none⟩ = .running m₁) :
    let inner := Search.search ⟨ev.kb, ev.options, some 1⟩ ev.options.strategy
      ⟨[sel.goal.positive], sel.bindings, s.depth + 1⟩ m₁.progress
    (∀ e, inner.outcome = .error e → (ev.solve goals b₀).1 = .error e) ∧
    ∀ results, inner.outcome = .ok results → ∃ g frames',
      sel.goal.positive.substitute? sel.bindings = some g ∧
      Machine.Reaches ⟨ev.kb, ev.options, none⟩ m₁
        { m.withFrames frames' with progress := inner.progress } ∧
      ((∀ θ, ¬ Derivable ev.kb Eq (g.apply θ)) ∧
          frames' = .state ⟨sel.rest, sel.bindings, s.depth + 1⟩ :: frames ∨
        (∃ θ, Derivable ev.kb Eq (g.apply θ)) ∧ frames' = frames) := by
  let t : Task := ⟨ev.kb, ev.options, none⟩
  let s₁ : State := ⟨[sel.goal.positive], sel.bindings, s.depth + 1⟩
  intro inner
  have hreached : ev.Reached goals b₀ m₁ := .tail hm hstep
  obtain ⟨hfault, hnil, hcons⟩ := Machine.run_of_negated htop hsel hneg hstep
  constructor
  · intro e he
    rw [solve_of_search ev goals b₀ rfl, Search.search, Machine.run_of_reaches hreached]
    exact hfault e _ he
  · intro results hresults
    have hapart := hreached.apart Term.inherited_isExact hu hkb hgoals hb₀ fun x u hx =>
      ⟨.var (hentries x u hx).1, (hentries x u hx).2⟩
    have hs₁ : s₁.Apart Term.IsExact b₀ (m₁.progress.fresh ev.options.mode s₁.depth) := by
      refine hapart m₁.level.strategy (.state s₁) (.inl ⟨rfl, ?_⟩)
      rw [Machine.eq_within_of_negated htop hsel hneg hstep]
      exact List.mem_singleton_self _
    have hdefinite : ∀ g ∈ s₁.goals, g.IsDefinite := by
      intro g hg
      obtain rfl := List.mem_singleton.mp hg
      exact Goal.isDefinite_positive huser
    have hexact : results = [] ↔
        ¬ ∃ θ, Derivable ev.kb Eq ((sel.goal.positive.apply sel.bindings.image).apply θ) := by
      rw [← State.satisfiable_singleton]
      exact search_first_eq_nil_iff (t := t) hu hkb hdef hs₁ hdefinite hresults
    refine ⟨sel.goal.positive.apply sel.bindings.image, ?_⟩
    have hsubstitute := Goal.substitute?_eq hs₁.bindings.acyclic sel.goal.positive
    cases results with
    | nil => exact ⟨_, hsubstitute, hnil hresults, .inl ⟨not_exists.mp (hexact.mp rfl), rfl⟩⟩
    | cons r rs =>
        refine ⟨_, hsubstitute, hcons r rs hresults, .inr ⟨?_, rfl⟩⟩
        by_contra hnone
        simpa using hexact.mpr hnone

/-- The second goal holds for the only value of the variable, the third one does not. -/
def edgeQuery : List Goal :=
  [⟨"edge", [.atom "a", .var "W"], false⟩, ⟨"edge", [.var "W", .atom "b"], true⟩,
    ⟨"edge", [.var "W", .atom "c"], true⟩]

/-- There is no room below the first state. -/
def shallow : Evaluator := { reaching with options := { limit := .whole 1 } }

theorem negation_exact_edges :
    let t : Task := ⟨reaching.kb, reaching.options, none⟩
    (∃ m m₁ p s frames sel, reaching.Reached edgeQuery ∅ m ∧ m.level.frames = .state s :: frames ∧
      Selects t m.level.strategy s sel ∧ sel.goal.negated = true ∧ m.step t = .running m₁ ∧
      Machine.Reaches t m₁
        { m.withFrames (.state ⟨sel.rest, sel.bindings, s.depth + 1⟩ :: frames) with
          progress := p }) ∧
    (∃ m m₁ p s frames sel, reaching.Reached edgeQuery ∅ m ∧ m.level.frames = .state s :: frames ∧
      Selects t m.level.strategy s sel ∧ sel.goal.negated = true ∧ m.step t = .running m₁ ∧
      Machine.Reaches t m₁ { m.withFrames frames with progress := p }) ∧
    ∃ e, (shallow.solve [⟨"path", [.atom "a", .var "W"], true⟩] ∅).1 = .error e := by
  intro t
  have hnot : ∀ θ, ¬ Derivable reaching.kb Eq
      (Goal.apply θ ⟨"edge", [.atom "b", .atom "b"], false⟩) := by
    intro θ h
    rcases h.of_user rfl with ⟨f, hf, σ, hargs⟩ | ⟨r, hr, _⟩
    · have hmem : f ∈ [(⟨"edge", [.atom "a", .atom "b"]⟩ : Fact),
          ⟨"edge", [.atom "b", .atom "c"]⟩] := hf
      rw [List.forall₂_eq_eq_eq] at hargs
      rcases List.mem_cons.mp hmem with rfl | hmem
      · simp [Goal.apply] at hargs
      · obtain rfl := List.mem_singleton.mp hmem
        simp [Goal.apply] at hargs
    · have hmem : r ∈ ([] : List Rule) := hr
      simp at hmem
  have hedge : Derivable reaching.kb Eq (Goal.apply .var ⟨"edge", [.atom "b", .atom "c"], false⟩) :=
    .fact (σ := .var) rfl (.tail _ (.head _)) (List.forall₂_eq_eq_eq ▸ rfl)
  have hentries : ∀ x u, (∅ : Bindings).get? x = some u → HashFree x ∧
      u.InProgram Term.IsExact := by
    simp
  -- After two steps the variable has its value; after eight the first negated goal is done with.
  have hfirst : ∃ m, reaching.after edgeQuery ∅ 2 = some m ∧ ∃ m₁, m.step t = .running m₁ ∧
      ∃ s frames sel, m.level.frames = .state s :: frames ∧ Selects t m.level.strategy s sel ∧
        sel.goal.negated = true ∧ isBuiltin sel.goal.predicate = false ∧
        sel.goal.positive.substitute? sel.bindings = some ⟨"edge", [.atom "b", .atom "b"], false⟩ ∧
        ∃ results, (Search.search t.first reaching.options.strategy
          ⟨[sel.goal.positive], sel.bindings, s.depth + 1⟩ m₁.progress).outcome = .ok results :=
    ⟨_, rfl, _, rfl, _, _, _, rfl, ⟨_, _, rfl, rfl⟩, rfl, rfl, rfl, _,
      (congrArg Report.outcome (search_eq_walk rfl _ _ _)).trans rfl⟩
  have hsecond : ∃ m, reaching.after edgeQuery ∅ 8 = some m ∧ ∃ m₁, m.step t = .running m₁ ∧
      ∃ s frames sel, m.level.frames = .state s :: frames ∧ Selects t m.level.strategy s sel ∧
        sel.goal.negated = true ∧ isBuiltin sel.goal.predicate = false ∧
        sel.goal.positive.substitute? sel.bindings = some ⟨"edge", [.atom "b", .atom "c"], false⟩ ∧
        ∃ results, (Search.search t.first reaching.options.strategy
          ⟨[sel.goal.positive], sel.bindings, s.depth + 1⟩ m₁.progress).outcome = .ok results :=
    ⟨_, rfl, _, rfl, _, _, _, rfl, ⟨_, _, rfl, rfl⟩, rfl, rfl, rfl, _,
      (congrArg Report.outcome (search_eq_walk rfl _ _ _)).trans rfl⟩
  have hthird : ∃ m, shallow.after [⟨"path", [.atom "a", .var "W"], true⟩] ∅ 0 = some m ∧
      ∃ m₁, m.step ⟨shallow.kb, shallow.options, none⟩ = .running m₁ ∧
      ∃ s frames sel, m.level.frames = .state s :: frames ∧
        Selects ⟨shallow.kb, shallow.options, none⟩ m.level.strategy s sel ∧
        sel.goal.negated = true ∧ isBuiltin sel.goal.predicate = false ∧
        ∃ e, (Search.search ⟨shallow.kb, shallow.options, some 1⟩ shallow.options.strategy
          ⟨[sel.goal.positive], sel.bindings, s.depth + 1⟩ m₁.progress).outcome = .error e :=
    ⟨_, rfl, _, rfl, _, _, _, rfl, ⟨_, _, rfl, rfl⟩, rfl, rfl, _,
      (congrArg Report.outcome (search_eq_walk rfl _ _ _)).trans rfl⟩
  refine ⟨?_, ?_, ?_⟩
  · obtain ⟨m, hafter, m₁, hstep, s, frames, sel, htop, hsel, hneg, huser, hg, results, hresults⟩ :=
      hfirst
    have hm : reaching.Reached edgeQuery ∅ m := reached_of_after hafter
    obtain ⟨g, frames', hsubstitute, hreaches, ⟨_, rfl⟩ | ⟨⟨θ, hθ⟩, _⟩⟩ :=
      (negation_exact rfl (by decide) (by decide)
        (by decide) Bindings.acyclic_empty hentries hm htop hsel hneg huser hstep).2
        results hresults
    · exact ⟨m, m₁, _, s, frames, sel, hm, htop, hsel, hneg, hstep, hreaches⟩
    · obtain rfl := Option.some.inj (hg.symm.trans hsubstitute)
      exact (hnot θ hθ).elim
  · obtain ⟨m, hafter, m₁, hstep, s, frames, sel, htop, hsel, hneg, huser, hg, results, hresults⟩ :=
      hsecond
    have hm : reaching.Reached edgeQuery ∅ m := reached_of_after hafter
    obtain ⟨g, frames', hsubstitute, hreaches, ⟨hnone, _⟩ | ⟨_, rfl⟩⟩ :=
      (negation_exact rfl (by decide) (by decide)
        (by decide) Bindings.acyclic_empty hentries hm htop hsel hneg huser hstep).2
        results hresults
    · obtain rfl := Option.some.inj (hg.symm.trans hsubstitute)
      exact (hnone _ hedge).elim
    · exact ⟨m, m₁, _, s, frames', sel, hm, htop, hsel, hneg, hstep, hreaches⟩
  · obtain ⟨m, hafter, m₁, hstep, s, frames, sel, htop, hsel, hneg, huser, e, he⟩ := hthird
    exact ⟨e,
      (negation_exact rfl (by decide) (by decide) (by decide) Bindings.acyclic_empty hentries
      (reached_of_after hafter) htop hsel hneg huser hstep).1 e he⟩

end Evaluator

end Clausal
