import Clausal.Proofs.Search.Twins

/-!
# Renaming modes

Copies of clauses may be numbered by their count or by the depth of the state. The two modes visit
the same states up to a renaming, in the same order. So they end alike: with the same fault, or with
the same results up to a one-to-one renaming of the names in copies, and with the same counts.
-/

namespace Clausal

/-- Acyclic bindings and what a renaming makes of them. -/
def Bindings.Twins (b b' : Bindings) : Prop :=
  b.Acyclic ∧ ∃ ρ : Equiv.Perm String, KeepsNames ρ ∧ b' = b.mapVars ρ

namespace Search

theorem traceGoal_mapVars (t : Task) (mode' : RenamingMode) (ρ : Equiv.Perm String)
    (sel : Selection) (depth : Nat) (p p' : Progress) :
    (∃ e, traceGoal t.options sel depth p = .error e ∧
      traceGoal (t.withMode mode').options (sel.mapVars ρ) depth p' = .error e) ∨
    ∃ q q', traceGoal t.options sel depth p = .ok q ∧
      traceGoal (t.withMode mode').options (sel.mapVars ρ) depth p' = .ok q' ∧
      q.stats = p.stats ∧ q'.stats = p'.stats := by
  have hgoal := Goal.substitute?_mapVars ρ.injective sel.goal sel.bindings
  simp only [traceGoal, Task.withMode, Selection.mapVars, hgoal]
  cases t.options.trace with
  | false => exact .inr ⟨_, _, rfl, rfl, rfl, rfl⟩
  | true =>
      rcases sel.goal.substitute? sel.bindings with _ | g
      · exact .inl ⟨_, rfl, rfl⟩
      · exact .inr ⟨_, _, rfl, rfl, rfl, rfl⟩

theorem tooDeep_mapVars (t : Task) (mode' : RenamingMode) (ρ : Equiv.Perm String) (s : State)
    (p p' : Progress) :
    ∃ e q q', tooDeep t.options s p = (e, q) ∧
      tooDeep (t.withMode mode').options (s.mapVars ρ) p' = (e, q') ∧
      q.stats = p.stats ∧ q'.stats = p'.stats := by
  have hshown : ((s.mapVars ρ).goals.take 3).all Goal.hasText =
      (s.goals.take 3).all Goal.hasText := by
    rw [State.mapVars, ← List.map_take, List.all_map]
    exact congrArg (List.all _) (funext fun g => Goal.hasText_mapVars ρ g)
  rw [tooDeep, tooDeep, Task.withMode]
  cases t.options.limit.floor with
  | none => exact ⟨_, _, _, rfl, rfl, rfl, rfl⟩
  | some limit =>
      dsimp only
      rw [hshown]
      split
      · exact ⟨_, _, _, rfl, rfl, rfl, rfl⟩
      · exact ⟨_, _, _, rfl, rfl, rfl, rfl⟩

/-- Two searches that number their copies differently: states are the same up to a renaming, and
so are results. -/
def twins (t : Task) (mode' : RenamingMode) (b₀ : Bindings) : Pairing where
  states p p' s s' := ∃ ρ, s.Twinned t.options.mode mode' b₀ p p' ρ ∧ s' = s.mapVars ρ
  results := Bindings.Twins
  counts p p' := p'.stats = p.stats
  excused _ := False

theorem Selection.eq_mapVars {sel sel' : Selection} {depth : Nat} {ρ : Equiv.Perm String}
    (h : sel'.state depth = (sel.state depth).mapVars ρ) : sel' = sel.mapVars ρ :=
  Selection.state_injective depth h

theorem lockstep_twins {t : Task} (hu : t.options.unifier.occursCheck = true)
    (hkb : t.kb.All Term.HashFree) (mode' : RenamingMode) (b₀ : Bindings) :
    Lockstep t (t.withMode mode') (twins t mode' b₀) where
  visit d h := by
    change (Progress.visit _ d).stats = (Progress.visit _ d).stats
    rw [Progress.visit, Progress.visit, h]
  infer h := by
    change (Progress.infer _).stats = (Progress.infer _).stats
    rw [Progress.infer, Progress.infer, h]
  prune h := by
    change (Progress.prune _).stats = (Progress.prune _).stats
    rw [Progress.prune, Progress.prune, h]
  depth := by
    rintro p p' s _ ⟨ρ, _, rfl⟩
    rfl
  mono := by
    rintro p p' q q' s _ ⟨ρ, hs, rfl⟩ hp hp'
    exact ⟨ρ, hs.mono hp hp', rfl⟩
  tooDeep := by
    rintro p p' s _ ⟨ρ, _, rfl⟩ hp
    obtain ⟨e, q, q', hdeep, hdeep', hq, hq'⟩ := tooDeep_mapVars t mode' ρ s p p'
    rw [hdeep, hdeep']
    exact .failed (hq'.trans (hp.trans hq.symm))
  done := by
    rintro p p' s _ ⟨ρ, hs, rfl⟩ hgoals
    exact ⟨by rw [State.mapVars, hgoals]; rfl, hs.apart.bindings.acyclic, ρ, hs.keeps, rfl⟩
  select := by
    rintro p p' s _ g gs strategy ⟨ρ, hs, rfl⟩ hp hgoals
    refine ⟨g.mapVars ρ, gs.map (Goal.mapVars ρ), by rw [State.mapVars, hgoals]; rfl, ?_⟩
    have hmapped : select (t.withMode mode').kb (t.withMode mode').options.unifier strategy
        (g.mapVars ρ) (gs.map (Goal.mapVars ρ)) (s.mapVars ρ).bindings = _ :=
      select_mapVars ρ.injective t.kb t.options.unifier strategy g gs s.bindings
    rw [hmapped]
    rcases hselect : select t.kb t.options.unifier strategy g gs s.bindings with e | _ | sel
    · exact .error hp
    · exact .ok hp .none
    · exact .ok hp (.some ⟨ρ, hs.selection hu hkb ⟨g, gs, hgoals, hselect⟩, rfl⟩)
  kind := by
    rintro p p' sel sel' d ⟨ρ, _, hsel⟩
    obtain rfl := Selection.eq_mapVars hsel
    exact ⟨rfl, rfl⟩
  trace := by
    rintro p p' sel sel' d ⟨ρ, _, hsel⟩ hp
    obtain rfl := Selection.eq_mapVars hsel
    rcases traceGoal_mapVars t mode' ρ sel d p p' with
      ⟨e, htrace, htrace'⟩ | ⟨q, q', htrace, htrace', hq, hq'⟩
    · rw [htrace, htrace']
      exact .error hp
    · rw [htrace, htrace']
      exact .ok hp (hq'.trans (hp.trans hq.symm))
  inner := by
    rintro p p' sel sel' d ⟨ρ, hs, hsel⟩ _
    obtain rfl := Selection.eq_mapVars hsel
    exact ⟨rfl, ρ, hs.inner hu hkb (sel.selects_state t d), rfl⟩
  rest := by
    rintro p p' sel sel' d ⟨ρ, hs, hsel⟩ hneg
    obtain rfl := Selection.eq_mapVars hsel
    have hselects := sel.selects_state t d
    exact ⟨ρ, hs.follows (t.withMode mode') hu hkb hu hkb (.negated hselects hneg (Nat.le_refl _))
      hs.keeps (.negated (hselects.mapVars ρ mode') hneg (Nat.le_refl _)), rfl⟩
  solve := by
    rintro p p' sel sel' d ⟨ρ, hs, hsel⟩ hp hpos hbuiltin
    obtain rfl := Selection.eq_mapVars hsel
    have hselects := sel.selects_state t d
    have hmapped : Builtin.solve (t.withMode mode').options.unifier (sel.mapVars ρ).goal
        (sel.mapVars ρ).bindings = _ :=
      Builtin.solve_mapVars ρ.injective t.options.unifier sel.goal sel.bindings
    rcases hsolve : Builtin.solve t.options.unifier sel.goal sel.bindings with e | _ | b
    all_goals
      rw [hsolve] at hmapped
      rw [hmapped]
    · exact .error hp
    · exact .ok hp .none
    · refine .ok hp (.some ⟨ρ, ?_, rfl⟩)
      exact hs.follows (t.withMode mode') hu hkb hu hkb
        (.builtin hselects hpos hbuiltin hsolve (Nat.le_refl _)) hs.keeps
        (.builtin (hselects.mapVars ρ mode') hpos hbuiltin hmapped (Nat.le_refl _))
  attempts := by
    rintro p p' sel sel' d - ⟨σ, _, hsel⟩ hpos huser
    have hpredicate : sel'.goal.predicate = sel.goal.predicate := by
      rw [Selection.eq_mapVars hsel]; rfl
    have htried : List.Forall₂ (Tried t (t.withMode mode') sel sel' d) (attempts t sel d)
        (attempts (t.withMode mode') sel' d) := by
      change List.Forall₂ _ _
        ((t.kb.factsFor sel'.goal.predicate).map _ ++ (t.kb.rulesFor sel'.goal.predicate).map _)
      rw [hpredicate]
      exact forall₂_tried (t.withMode mode') hkb rfl d hpredicate (List.Subset.refl _)
        (List.Subset.refl _)
    refine htried.imp ?_
    rintro a a' ⟨ha, ha', names, htwins⟩ q q' ⟨ρ, hs, hsel⟩ hq
    obtain rfl := Selection.eq_mapVars hsel
    have hselects := sel.selects_state t d
    -- The renaming is extended for this attempt only; the next one starts from `ρ` again.
    obtain ⟨τ, hτ, hsame, hnew⟩ := hs.exists_extension names
    obtain ⟨hout, hstats⟩ := htwins q q' τ (Selection.mapVars_congr hsame).symm hnew
    rcases hattempt : a q with ⟨e | _ | s₁, q₁⟩
    all_goals
      rcases hattempt' : a' q' with ⟨o, q₁'⟩
      rw [hattempt, hattempt'] at hout hstats
      obtain rfl : o = _ := hout
    · exact .error (hstats hq)
    · exact .ok (hstats hq) .none
    · refine .ok (hstats hq) (.some ⟨τ, ?_, rfl⟩)
      exact hs.follows (t.withMode mode') hu hkb hu hkb (.clause hselects hpos huser ha hattempt) hτ
        (.clause (hselects.mapVars ρ mode') hpos huser ha' hattempt')

end Search

/-- Bindings that give the variables of the goals the same values, up to a one-to-one renaming of
the names in copies. -/
def Bindings.Agree (goals : List Goal) (r r' : Bindings) : Prop :=
  ∃ ρ : Equiv.Perm String, KeepsNames ρ ∧ ∀ g ∈ goals, ∀ x ∈ g.vars, ∃ u,
    r.substitute? (.var x) = some u ∧ r'.substitute? (.var x) = some (u.mapVars ρ)

theorem Bindings.Twins.agree {r r' : Bindings} (h : r.Twins r') {goals : List Goal}
    (hgoals : ∀ g ∈ goals, g.All Term.HashFree) : r.Agree goals r' := by
  obtain ⟨hr, ρ, hρ, rfl⟩ := h
  refine ⟨ρ, hρ, fun g hg x hx => ⟨_, hr.substitute?_eq (.var x), ?_⟩⟩
  obtain ⟨a, ha, hxa⟩ := Term.mem_varsAll.mp hx
  have hx' : (Term.var x).mapVars ρ = .var x := by rw [Term.mapVars, hρ x (hgoals g hg a ha x hxa)]
  have hmapped := Bindings.substitute?_mapVars ρ.injective r (.var x)
  rw [hx', hr.substitute?_eq (.var x)] at hmapped
  exact hmapped

namespace Evaluator

open Search

/-- The evaluator with another way to number the copies of clauses. -/
def withMode (ev : Evaluator) (mode : RenamingMode) : Evaluator :=
  { ev with options := { ev.options with mode } }

/-- Under both renaming modes the search for all proofs ends with the same fault, or with as many
results, which agree one by one on the variables of the goals. The counts are the same. -/
theorem solve_modes_agree {ev : Evaluator} (hu : ev.options.unifier.occursCheck = true)
    (hkb : ev.kb.All Term.HashFree) {goals : List Goal} (hgoals : ∀ g ∈ goals, g.All Term.HashFree)
    {b : Bindings} (hb : b.Acyclic) (hd : b.Distinct) (hnames : ∀ x, b.Mentions x → HashFree x) :
    ((∃ e, ((ev.withMode .application).solve goals b).1 = .error e ∧
        ((ev.withMode .depth).solve goals b).1 = .error e) ∨
      ∃ rs rs', ((ev.withMode .application).solve goals b).1 = .ok rs ∧
        ((ev.withMode .depth).solve goals b).1 = .ok rs' ∧
        List.Forall₂ (Bindings.Agree goals) rs rs') ∧
    ((ev.withMode .depth).solve goals b).2.progress.stats =
      ((ev.withMode .application).solve goals b).2.progress.stats := by
  let t : Task := ⟨ev.kb, (ev.withMode .application).options, none⟩
  have hstates : (twins t .depth b).states {} {} ⟨goals, b, 0⟩ ⟨goals, b, 0⟩ :=
    ⟨Equiv.refl String, .start hgoals hb hd hnames, (State.mapVars_refl _).symm⟩
  have hsearch := (lockstep_twins (t := t) hu hkb .depth b).search rfl rfl (fun _ _ _ => trivial)
    ev.options.strategy hstates rfl
  obtain ⟨hends, hcounts⟩ := hsearch.of_not_excused (fun _ => False.elim) fun _ => False.elim
  rw [stats_solve, stats_solve, solve_of_search _ goals b rfl, solve_of_search _ goals b rfl]
  refine ⟨hends.imp_right ?_, hcounts⟩
  rintro ⟨rs, rs', hrs, hrs', htwins⟩
  exact ⟨rs, rs', hrs, hrs', htwins.imp fun r r' h => h.agree hgoals⟩

/-- Two boxes with something in each, the first of which is not empty. -/
def boxes : Evaluator :=
  { kb := (KnowledgeBase.empty.addFact ⟨"box", [.compound "f" [.var "V"]]⟩).addRule
      ⟨⟨"two", [.var "X", .var "Y"]⟩,
        [⟨"box", [.var "X"], false⟩, ⟨"empty", [.var "X"], true⟩, ⟨"box", [.var "Y"], false⟩]⟩
    options := { limit := .whole 5, strategy := .baseline } }

def boxesQuery : List Goal := [⟨"two", [.var "A", .var "B"], false⟩]

/-- The first copy of the fact is the second copy of a clause, but it is made at depth one. -/
theorem solve_modes_agree_boxes :
    ∃ r r', ((boxes.withMode .application).solve boxesQuery ∅).1 = .ok [r] ∧
      ((boxes.withMode .depth).solve boxesQuery ∅).1 = .ok [r'] ∧
      r.substitute? (.var "A") = some (.compound "f" [.var "V#2"]) ∧
      r'.substitute? (.var "A") = some (.compound "f" [.var "V#1"]) ∧
      r.Agree boxesQuery r' := by
  have hfirst : ∃ r, ((boxes.withMode .application).solve boxesQuery ∅).1 = .ok [r] ∧
      r.substitute? (.var "A") = some (.compound "f" [.var "V#2"]) := by
    rw [solve_eq_walk rfl]
    exact ⟨_, rfl, rfl⟩
  have hsecond : ∃ r', ((boxes.withMode .depth).solve boxesQuery ∅).1 = .ok [r'] ∧
      r'.substitute? (.var "A") = some (.compound "f" [.var "V#1"]) := by
    rw [solve_eq_walk rfl]
    exact ⟨_, rfl, rfl⟩
  obtain ⟨r, hr, hvalue⟩ := hfirst
  obtain ⟨r', hr', hvalue'⟩ := hsecond
  have hagree := (@solve_modes_agree boxes rfl (by decide) boxesQuery (by decide) ∅
    Bindings.acyclic_empty Bindings.distinct_empty (by simp [Bindings.Mentions])).1
  rw [hr, hr'] at hagree
  obtain ⟨_, herror, _⟩ | ⟨_, _, hrs, hrs', htwins⟩ := hagree
  · simp at herror
  · obtain rfl := Except.ok.inj hrs
    obtain rfl := Except.ok.inj hrs'
    exact ⟨r, r', hr, hr', hvalue, hvalue', (List.forall₂_cons.mp htwins).1⟩

end Evaluator

end Clausal
