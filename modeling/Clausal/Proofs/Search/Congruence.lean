import Clausal.Proofs.Search.Selection

/-!
# What a search looks at

A search for goals looks at the clauses of their predicates only, and at the configured strategy
only to prove a negated goal. Two searches that agree on this are the same search, step by step:
they visit the same states, copy the same clauses and count the same.
-/

namespace Clausal.Search

section Selection

variable {kb kb' : KnowledgeBase} {gs : List Goal}

theorem propagate_congr (u : Unifier)
    (h : ∀ g ∈ gs, kb'.factsFor g.predicate = kb.factsFor g.predicate ∧
    kb'.rulesFor g.predicate = kb.rulesFor g.predicate) (b : Bindings) :
    propagate kb' u gs b = propagate kb u gs b := by
  induction gs generalizing b with
  | nil => rfl
  | cons g gs ih =>
      obtain ⟨hfacts, hrules⟩ := h g List.mem_cons_self
      have hrest := ih fun g' hg' => h g' (List.mem_cons_of_mem _ hg')
      simp only [propagate, hfacts, hrules, hrest]

theorem selectIndex?_congr (h : ∀ g ∈ gs, kb'.factsFor g.predicate = kb.factsFor g.predicate ∧
    kb'.rulesFor g.predicate = kb.rulesFor g.predicate) (b : Bindings) :
    selectIndex? kb' gs b = selectIndex? kb gs b := by
  refine selectIndex?_of_forall₂ (List.forall₂_same.mpr fun g hg => ⟨rfl, ?_⟩)
  rw [score, score, (h g hg).1, (h g hg).2]

theorem select_congr (u : Unifier) (strategy : Strategy) {g : Goal}
    (h : ∀ g' ∈ g :: gs, kb'.factsFor g'.predicate = kb.factsFor g'.predicate ∧
      kb'.rulesFor g'.predicate = kb.rulesFor g'.predicate) (b : Bindings) :
    select kb' u strategy g gs b = select kb u strategy g gs b := by
  cases strategy with
  | baseline => rfl
  | constrained =>
      simp only [select, propagate_congr u h, selectIndex?_congr h]

end Selection

variable {t t' : Task} {strategy : Strategy} {s s' : State} {p : Progress} {Q : Goal → Prop}

/-- Goals come from the state and from the bodies of the rules for its goals. -/
theorem Successor.forall_goals (hQ : ∀ g ρ, Q g → Q (g.mapVars ρ)) (h : Successor t strategy s p s')
    (hbody : ∀ g, Q g → ∀ r ∈ t.kb.rulesFor g.predicate, ∀ g' ∈ r.body, Q g')
    (hs : ∀ g ∈ s.goals, Q g) : ∀ g ∈ s'.goals, Q g := by
  cases h with
  | negated hsel _ | builtin hsel _ _ _ | fact hsel _ _ _ _ =>
      exact fun g hg => hs g (hsel.mem_of_mem_rest hg)
  | rule hsel _ _ hr _ =>
      intro g hg
      rcases List.mem_append.mp hg with hg | hrest
      · obtain ⟨g', hg', rfl⟩ := List.mem_map.mp hg
        exact hQ g' _ (hbody _ (hs _ hsel.goal_mem) _ hr g' hg')
      · exact hs g (hsel.mem_of_mem_rest hrest)

theorem walkAttempts_congr {go go' : State → Found → Walk} {as : List (Progress → Attempt)}
    (h : ∀ a ∈ as, ∀ p s f, (a p).1 = .ok (some s) → go s f = go' s f) (f : Found) :
    walkAttempts go as f = walkAttempts go' as f := by
  induction as generalizing f with
  | nil => rfl
  | cons a as ih =>
      have hrest := ih fun b hb => h b (List.mem_cons_of_mem _ hb)
      rw [walkAttempts, walkAttempts]
      rcases hattempt : a f.progress with ⟨e | _ | s, p⟩
      · rfl
      · exact hrest _
      · have hs := h a List.mem_cons_self f.progress s { f with progress := p } (by rw [hattempt])
        dsimp only
        rw [hs]
        cases go' s { f with progress := p } with
        | more f' => exact hrest f'
        | enough f' => rfl
        | failed e q => rfl

/-- The tasks agree on all that a search for goals with the property looks at, and the goals that
such a search comes to have the property. -/
structure AgreeOn (Q : Goal → Prop) (t t' : Task) : Prop where
  options : t'.options = { t.options with strategy := t'.options.strategy }
  clauses : ∀ g, Q g → t'.kb.factsFor g.predicate = t.kb.factsFor g.predicate ∧
    t'.kb.rulesFor g.predicate = t.kb.rulesFor g.predicate
  body : ∀ g, Q g → ∀ r ∈ t.kb.rulesFor g.predicate, ∀ g' ∈ r.body, Q g'
  copy : ∀ g ρ, Q g → Q (g.mapVars ρ)
  inner : ∀ g, Q g → g.negated = true → t'.options.strategy = t.options.strategy ∧ Q g.positive

namespace AgreeOn

theorem select_eq (h : AgreeOn Q t t') (strategy : Strategy) {g : Goal} {gs : List Goal}
    (hgoals : ∀ g' ∈ g :: gs, Q g') (b : Bindings) :
    select t'.kb t'.options.unifier strategy g gs b =
      select t.kb t.options.unifier strategy g gs b := by
  rw [h.options]
  exact select_congr t.options.unifier strategy (fun g' hg' => h.clauses g' (hgoals g' hg')) b

theorem attempts_eq (h : AgreeOn Q t t') {sel : Selection} (hgoal : Q sel.goal) (depth : Nat) :
    attempts t' sel depth = attempts t sel depth := by
  obtain ⟨hfacts, hrules⟩ := h.clauses sel.goal hgoal
  rw [attempts, attempts, hfacts, hrules, h.options]
  rfl

theorem walk_eq (h : AgreeOn Q t t') (n : Nat) (strategy : Strategy)
    (wanted : Option Nat) (s : State) (f : Found) (hs : ∀ g ∈ s.goals, Q g) :
    walk t' n strategy wanted s f = walk t n strategy wanted s f := by
  have hoptions := h.options
  induction n generalizing strategy wanted s f with
  | zero =>
      rw [walk, walk, tooDeep, tooDeep, hoptions]
  | succ n ih =>
      cases hgoals : s.goals with
      | nil => rw [walk_done hgoals, walk_done hgoals]
      | cons g gs =>
          have hsame := h.select_eq strategy (hgoals ▸ hs) s.bindings
          rcases hselect : select t.kb t.options.unifier strategy g gs s.bindings with e | _ | sel
          · rw [walk_unselected hgoals hselect, walk_unselected hgoals (hsame.trans hselect)]
          · rw [walk_pruned hgoals hselect, walk_pruned hgoals (hsame.trans hselect)]
          · have hsel : Selects t strategy s sel := ⟨g, gs, hgoals, hselect⟩
            have hgoal : Q sel.goal := hs _ hsel.goal_mem
            have hnext : ∀ {p : Progress} {s' : State} (f : Found), Successor t strategy s p s' →
                walk t' n strategy wanted s' f = walk t n strategy wanted s' f :=
              fun f hsucc => ih strategy wanted _ f (hsucc.forall_goals h.copy h.body hs)
            have htrace : traceGoal t'.options = traceGoal t.options := by
              rw [hoptions]
              rfl
            rw [walk_selected hgoals hselect,
              walk_selected hgoals (hsame.trans hselect), walkSelected, walkSelected, htrace]
            rcases traceGoal t.options sel s.depth (f.progress.visit s.depth).infer with e | p
            · rfl
            · dsimp only
              cases hneg : sel.goal.negated with
              | true =>
                  obtain ⟨hstrategy, hpositive⟩ := h.inner sel.goal hgoal hneg
                  have hinner : ∀ g' ∈ [sel.goal.positive], Q g' := by simpa using hpositive
                  simp only [if_true, hstrategy]
                  rw [ih _ _ _ _ hinner]
                  cases walk t n t.options.strategy (some 1)
                      ⟨[sel.goal.positive], sel.bindings, s.depth + 1⟩ ⟨[], p⟩ with
                  | more inside => exact hnext (p := p) _ (.negated hsel hneg)
                  | enough inside => rfl
                  | failed e q => rfl
              | false =>
                  simp only [Bool.false_eq_true, if_false]
                  cases hbuiltin : isBuiltin sel.goal.predicate with
                  | true =>
                      have hunifier : t'.options.unifier = t.options.unifier := by rw [hoptions]
                      simp only [if_true, hunifier]
                      rcases hsolve : Builtin.solve t.options.unifier sel.goal sel.bindings
                        with e | _ | b
                      · rfl
                      · rfl
                      · exact hnext (p := p) _ (.builtin hsel hneg hbuiltin hsolve)
                  | false =>
                      simp only [Bool.false_eq_true, if_false]
                      rw [h.attempts_eq hgoal]
                      refine walkAttempts_congr (fun a ha p' s' f' hattempt => ?_) _
                      exact hnext f' (successor_of_attempts hsel hneg hbuiltin ha hattempt)

end AgreeOn

end Clausal.Search
