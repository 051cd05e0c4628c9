import Clausal.Proofs.Search.Recursion

/-!
# The search as concatenation of subtrees

The results of a state are those of its successors, one after the other. A successor is produced
when the subtrees of the successors before it have been searched, so clause copies are numbered in
the order in which the search reaches them. This is what the search with a stack computes. Without a
depth limit the calls of the procedure may nest without an end, and then the search has none.
-/

namespace Clausal

namespace Search

/-! ## The procedure -/

/-- The results of the successors one after the other, or up to the first result. A successor is
produced after the search through the ones before it; without a report on one there is none on
all. -/
def concatenate (first : Bool) (subtree : State → Progress → Option Report) :
    List (Progress → Attempt) → Progress → Option Report
  | [], p => some ⟨.ok [], p⟩
  | produce :: rest, p =>
    match produce p with
    | (.error e, p) => some ⟨.error e, p⟩
    | (.ok none, p) => concatenate first subtree rest p
    | (.ok (some s), p) =>
      match subtree s p with
      | none => none
      | some ⟨.error e, p⟩ => some ⟨.error e, p⟩
      | some ⟨.ok found, p⟩ =>
        if first && !found.isEmpty then some ⟨.ok found, p⟩
        else (concatenate first subtree rest p).map fun others =>
          ⟨others.outcome.map (found ++ ·), others.progress⟩

/-- The results for a selected goal: a negated goal has one successor if the search for the goal
itself finds nothing, a built-in goal if it is satisfied, and any other goal one for each clause
that fits, facts before rules. The searches through states are calls of `self`. -/
def procedureSelected (kb : KnowledgeBase) (o : Options)
    (self : Bool → Strategy → State → Progress → Option Report) (first : Bool) (strategy : Strategy)
    (sel : Selection) (depth : Nat) (p : Progress) : Option Report :=
  match traceGoal o sel depth p with
  | .error e => some ⟨.error e, p⟩
  | .ok p =>
    if sel.goal.negated then
      match self true o.strategy ⟨[sel.goal.positive], sel.bindings, depth + 1⟩ p with
      | none => none
      | some ⟨.error e, p⟩ => some ⟨.error e, p⟩
      | some ⟨.ok (_ :: _), p⟩ => some ⟨.ok [], p⟩
      | some ⟨.ok [], p⟩ => self first strategy ⟨sel.rest, sel.bindings, depth + 1⟩ p
    else if isBuiltin sel.goal.predicate then
      match Builtin.solve o.unifier sel.goal sel.bindings with
      | .error e => some ⟨.error e, p⟩
      | .ok none => some ⟨.ok [], p⟩
      | .ok (some b) => self first strategy ⟨sel.rest, b, depth + 1⟩ p
    else
      concatenate first (self first strategy)
        ((kb.factsFor sel.goal.predicate).map (tryFact o sel depth) ++
          (kb.rulesFor sel.goal.predicate).map (tryRule o sel depth)) p

/-- All results, or the first one, of a state. There is no report if calls nest deeper than the
bound within the limit. -/
def procedure (kb : KnowledgeBase) (o : Options) (nesting : Nat) (first : Bool)
    (strategy : Strategy) (s : State) (p : Progress) : Option Report :=
  if o.limit.isExceededBy s.depth then
    let (e, p) := tooDeep o s p
    some ⟨.error e, p⟩
  else
    match nesting with
    | 0 => none
    | n + 1 =>
      let p := p.visit s.depth
      match s.goals with
      | [] => some ⟨.ok [s.bindings], p⟩
      | g :: gs =>
        let p := p.infer
        match select kb o.unifier strategy g gs s.bindings with
        | .error e => some ⟨.error e, p⟩
        | .ok none => some ⟨.ok [], p.prune⟩
        | .ok (some sel) =>
          procedureSelected kb o (procedure kb o n) first strategy sel s.depth p

/-! ## Deeper nesting -/

theorem concatenate_mono {first : Bool} {go go' : State → Progress → Option Report}
    (h : ∀ s p r, go s p = some r → go' s p = some r) {as : List (Progress → Attempt)}
    {p : Progress} {r : Report} (hr : concatenate first go as p = some r) :
    concatenate first go' as p = some r := by
  induction as generalizing p r with
  | nil => exact hr
  | cons a as ih =>
      rw [concatenate] at hr ⊢
      generalize a p = attempt at hr ⊢
      obtain ⟨e | _ | s, q⟩ := attempt
      · exact hr
      · exact ih hr
      · dsimp only at hr ⊢
        cases hsub : go s q with
        | none => simp [hsub] at hr
        | some sub =>
            rw [hsub] at hr
            rw [h s q sub hsub]
            obtain ⟨e | found, q'⟩ := sub
            · exact hr
            · dsimp only at hr ⊢
              split at hr
              · next hstop => rw [if_pos hstop, hr]
              · next hstop =>
                obtain ⟨others, hothers, rfl⟩ := Option.map_eq_some_iff.mp hr
                rw [if_neg hstop, ih hothers]
                rfl

section Mono

variable {kb : KnowledgeBase} {o : Options} {first : Bool} {strategy : Strategy} {p : Progress}
  {r : Report}

theorem procedureSelected_mono {go go' : Bool → Strategy → State → Progress → Option Report}
    (h : ∀ first strategy s p r, go first strategy s p = some r → go' first strategy s p = some r)
    {sel : Selection} {depth : Nat}
    (hr : procedureSelected kb o go first strategy sel depth p = some r) :
    procedureSelected kb o go' first strategy sel depth p = some r := by
  rw [procedureSelected] at hr ⊢
  generalize traceGoal o sel depth p = traced at hr ⊢
  obtain e | q := traced
  · exact hr
  · dsimp only at hr ⊢
    split at hr
    · next hneg =>
      rw [if_pos hneg]
      cases hinner : go true o.strategy ⟨[sel.goal.positive], sel.bindings, depth + 1⟩ q with
      | none => simp [hinner] at hr
      | some inner =>
          rw [hinner] at hr
          rw [h _ _ _ _ _ hinner]
          obtain ⟨e | _ | ⟨b, bs⟩, q'⟩ := inner
          · exact hr
          · exact h _ _ _ _ _ hr
          · exact hr
    · next hneg =>
      rw [if_neg hneg]
      split at hr
      · next hbuiltin =>
        rw [if_pos hbuiltin]
        generalize Builtin.solve o.unifier sel.goal sel.bindings = solved at hr ⊢
        obtain e | _ | b := solved
        · exact hr
        · exact hr
        · exact h _ _ _ _ _ hr
      · next huser =>
        rw [if_neg huser]
        exact concatenate_mono (h first strategy) hr

variable {s : State}

theorem procedure_of_isExceededBy (h : o.limit.isExceededBy s.depth = true) (n : Nat) :
    procedure kb o n first strategy s p =
      some ⟨.error (tooDeep o s p).1, (tooDeep o s p).2⟩ := by
  rw [procedure.eq_def, if_pos h]

/-- A larger bound on the nesting does not change a report. -/
theorem procedure_mono {n m : Nat} (hnm : n ≤ m)
    (hr : procedure kb o n first strategy s p = some r) :
    procedure kb o m first strategy s p = some r := by
  induction n generalizing m first strategy s p r with
  | zero =>
      by_cases hdeep : o.limit.isExceededBy s.depth = true
      · rw [procedure_of_isExceededBy hdeep] at hr ⊢
        exact hr
      · simp [procedure, hdeep] at hr
  | succ n ih =>
      obtain ⟨m, rfl⟩ := Nat.exists_eq_add_of_le' (Nat.le_trans n.succ_pos hnm)
      by_cases hdeep : o.limit.isExceededBy s.depth = true
      · rw [procedure_of_isExceededBy hdeep] at hr ⊢
        exact hr
      · rw [procedure, if_neg hdeep] at hr ⊢
        dsimp only at hr ⊢
        generalize s.goals = goals at hr ⊢
        obtain _ | ⟨g, gs⟩ := goals
        · exact hr
        · dsimp only at hr ⊢
          generalize select kb o.unifier strategy g gs s.bindings = selected at hr ⊢
          obtain e | _ | sel := selected
          · exact hr
          · exact hr
          · exact procedureSelected_mono
              (fun _ _ _ _ _ h => ih (Nat.le_of_succ_le_succ hnm) h) hr

/-- Reports within two bounds are the same. -/
theorem procedure_unique {n m : Nat} {r' : Report}
    (h : procedure kb o n first strategy s p = some r)
    (h' : procedure kb o m first strategy s p = some r') : r = r' :=
  Option.some.inj ((procedure_mono (Nat.le_max_left n m) h).symm.trans
    (procedure_mono (Nat.le_max_right n m) h'))

end Mono

/-! ## Walks that add to what is found -/

/-- What is found before a report is added to it. -/
def Found.extend (first : Bool) (f : Found) : Report → Walk
  | ⟨.error e, p⟩ => .failed e p
  | ⟨.ok rs, p⟩ =>
    if first && !rs.isEmpty then .enough ⟨rs.reverse ++ f.results, p⟩
    else .more ⟨rs.reverse ++ f.results, p⟩

/-- A search for one result starts without results. -/
def Found.Starts (first : Bool) (f : Found) : Prop :=
  first = true → f.results = []

theorem Found.extend_report (first : Bool) (p : Progress) (r : Report) :
    (Found.extend first ⟨[], p⟩ r).report = r := by
  obtain ⟨e | rs, q⟩ := r
  · rfl
  · rw [Found.extend]
    split <;> simp [Walk.report]

theorem Found.extend_nil (first : Bool) (f : Found) (p : Progress) :
    f.extend first ⟨.ok [], p⟩ = .more { f with progress := p } := by
  simp [Found.extend]

/-- Where the first results are not enough, the others are added to them. -/
theorem Found.Starts.extend_append {first : Bool} {f : Found} (hf : f.Starts first)
    {found : List Bindings} (hstop : ¬ (first && !found.isEmpty) = true) (p : Progress) :
    ∃ f' : Found, f'.Starts first ∧ f'.progress = p ∧ f.extend first ⟨.ok found, p⟩ = .more f' ∧
      ∀ others : Report, f'.extend first others =
        f.extend first ⟨others.outcome.map (found ++ ·), others.progress⟩ := by
  have hnone : first = true → found = [] := by
    rintro rfl
    simpa using hstop
  refine ⟨⟨found.reverse ++ f.results, p⟩, fun h => by simp [hnone h, hf h], rfl, ?_, ?_⟩
  · simp only [Found.extend, if_neg hstop]
  · rintro ⟨e | rs, q⟩
    · rfl
    · cases first with
      | false => simp [Found.extend, Except.map]
      | true => simp [Found.extend, Except.map, hnone rfl]

/-- How many results a walk is told to look for. -/
def wantedBy (first : Bool) : Option Nat :=
  if first then some 1 else none

/-- A walk adds a report to what is found, or runs out of levels where there is no report. -/
def Walk.Adds (first : Bool) (f : Found) (w : Walk) : Option Report → Prop
  | some r => r.outcome ≠ .error .divergent ∧ w = f.extend first r
  | none => ∃ p, w = .failed .divergent p

section Walks

variable {t : Task} {n : Nat} {strategy : Strategy} {first : Bool} {f : Found} {depth : Nat}

theorem adds_fault {e : Fault} (he : e ≠ .divergent) (p : Progress) :
    Walk.Adds first f (.failed e p) (some ⟨.error e, p⟩) :=
  ⟨fun h => he (Except.error.inj h), rfl⟩

theorem adds_nil (f : Found) (p : Progress) :
    Walk.Adds first f (.more { f with progress := p }) (some ⟨.ok [], p⟩) :=
  ⟨by simp, (f.extend_nil first p).symm⟩

/-- The walks through states at a depth do what the calls do. -/
def Realizes (t : Task) (n depth : Nat)
    (self : Bool → Strategy → State → Progress → Option Report) : Prop :=
  ∀ (strategy : Strategy) (first : Bool) (s : State) (f : Found), s.depth = depth → f.Starts first →
    (walk t n strategy (wantedBy first) s f).Adds first f (self first strategy s f.progress)

variable {self : Bool → Strategy → State → Progress → Option Report}

theorem Realizes.attempts (h : Realizes t n depth self) {as : List (Progress → Attempt)}
    (hdepth : ∀ a ∈ as, ∀ p s, (a p).1 = .ok (some s) → s.depth = depth)
    (hfaults : ∀ a ∈ as, ∀ p e, (a p).1 = .error e → e ≠ .divergent) (hf : f.Starts first) :
    (walkAttempts (walk t n strategy (wantedBy first)) as f).Adds first f
      (concatenate first (self first strategy) as f.progress) := by
  induction as generalizing f with
  | nil => exact adds_nil f f.progress
  | cons a as ih =>
      have hrest : ∀ {f : Found}, f.Starts first →
          (walkAttempts (walk t n strategy (wantedBy first)) as f).Adds first f
            (concatenate first (self first strategy) as f.progress) :=
        ih (fun b hb => hdepth b (List.mem_cons_of_mem a hb))
          fun b hb => hfaults b (List.mem_cons_of_mem a hb)
      rw [walkAttempts, concatenate]
      rcases ha : a f.progress with ⟨e | _ | s, p⟩
      · exact adds_fault (hfaults a List.mem_cons_self f.progress e (by rw [ha])) p
      · exact hrest (f := { f with progress := p }) hf
      · have hsub := h strategy first s { f with progress := p }
          (hdepth a List.mem_cons_self f.progress s (by rw [ha])) hf
        dsimp only at hsub ⊢
        generalize self first strategy s p = subtree at hsub ⊢
        obtain _ | ⟨e | found, q⟩ := subtree
        · obtain ⟨q, hq⟩ := hsub
          rw [hq]
          exact ⟨q, rfl⟩
        · rw [hsub.2]
          exact ⟨hsub.1, rfl⟩
        · rw [hsub.2]
          dsimp only
          by_cases hstop : (first && !found.isEmpty) = true
          · rw [if_pos hstop]
            refine ⟨by simp, ?_⟩
            simp only [Found.extend, if_pos hstop]
          · obtain ⟨f', hf', rfl, hmore, happend⟩ :=
              Found.Starts.extend_append (f := { f with progress := p }) hf hstop q
            rw [if_neg hstop, hmore]
            have hothers := hrest hf'
            generalize concatenate first (self first strategy) as f'.progress = out at hothers ⊢
            obtain _ | others := out
            · exact hothers
            · refine ⟨?_, hothers.2.trans (happend others)⟩
              obtain ⟨e | rs, _⟩ := others
              · exact hothers.1
              · simp [Except.map]

theorem Realizes.selected (h : Realizes t n (depth + 1) self) (hf : f.Starts first)
    (sel : Selection) (p : Progress) :
    (walkSelected t n strategy (wantedBy first) depth f sel p).Adds first f
      (procedureSelected t.kb t.options self first strategy sel depth p) := by
  rw [walkSelected, procedureSelected]
  rcases htrace : traceGoal t.options sel depth p with e | p
  · exact adds_fault (fault_of_traceGoal htrace).ne_divergent _
  dsimp only
  by_cases hneg : sel.goal.negated = true
  · rw [if_pos hneg, if_pos hneg]
    have hinner := h t.options.strategy true ⟨[sel.goal.positive], sel.bindings, depth + 1⟩
      ⟨[], p⟩ rfl fun _ => rfl
    rw [wantedBy, if_pos rfl] at hinner
    dsimp only at hinner
    generalize self true t.options.strategy ⟨[sel.goal.positive], sel.bindings, depth + 1⟩ p =
      inner at hinner ⊢
    obtain _ | ⟨e | _ | ⟨b, bs⟩, q⟩ := inner
    · obtain ⟨q, hq⟩ := hinner
      rw [hq]
      exact ⟨q, rfl⟩
    · rw [hinner.2]
      exact ⟨hinner.1, rfl⟩
    · rw [hinner.2]
      exact h strategy first ⟨sel.rest, sel.bindings, depth + 1⟩ { f with progress := q } rfl hf
    · rw [hinner.2]
      exact adds_nil f q
  · rw [if_neg hneg, if_neg hneg]
    by_cases hbuiltin : isBuiltin sel.goal.predicate = true
    · rw [if_pos hbuiltin, if_pos hbuiltin]
      rcases hsolve : Builtin.solve t.options.unifier sel.goal sel.bindings with e | _ | b
      · exact adds_fault (Builtin.fault_of_solve hsolve).ne_divergent _
      · exact adds_nil f p
      · exact h strategy first ⟨sel.rest, b, depth + 1⟩ { f with progress := p } rfl hf
    · rw [if_neg hbuiltin, if_neg hbuiltin]
      exact h.attempts (f := { f with progress := p }) (fun a ha q s hs => depth_of_attempts ha hs)
        (fun a ha q e he => (fault_of_attempts ha he).ne_divergent) hf

/-- A walk with as many levels as the limit leaves does what the procedure does. -/
theorem realizes_procedure (t : Task) (n depth : Nat) (hn : t.Leaves depth n) :
    Realizes t n depth (procedure t.kb t.options n) := by
  induction n generalizing depth with
  | zero =>
      rintro strategy first s f rfl hf
      rw [walk]
      by_cases hdeep : t.options.limit.isExceededBy s.depth = true
      · rw [procedure_of_isExceededBy hdeep]
        exact adds_fault (tooDeep_ne_divergent hdeep f.progress) _
      · rw [procedure, if_neg hdeep]
        have hfloor := hn.exceeded.resolve_right hdeep
        exact ⟨f.progress, by rw [tooDeep, hfloor]⟩
  | succ n ih =>
      rintro strategy first s f rfl hf
      have hlimit : t.options.limit.isExceededBy s.depth = false := hn.not_exceeded n.succ_pos
      rw [procedure, hlimit, if_neg Bool.false_ne_true]
      cases hgoals : s.goals with
      | nil =>
          rw [walk_done hgoals]
          refine ⟨by simp, ?_⟩
          cases first <;> simp [wantedBy, Found.add, Found.extend, Machine.isEnough]
      | cons g gs =>
          dsimp only
          rcases hselect : select t.kb t.options.unifier strategy g gs s.bindings with e | _ | sel
          · rw [walk_unselected hgoals hselect]
            exact adds_fault (fault_of_select hselect).ne_divergent _
          · rw [walk_pruned hgoals hselect]
            exact adds_nil f _
          · rw [walk_selected hgoals hselect]
            exact (ih (s.depth + 1) hn.deeper).selected hf sel _

end Walks

/-- The search with a stack makes the report of the procedure; or there is no limit, and no bound on
the nesting is enough. -/
theorem search_eq_or_divergent {t : Task} (ht : t.wanted = none) (strategy : Strategy) (s : State)
    (p : Progress) :
    (∀ᶠ n in levels t.options.limit s.depth,
      procedure t.kb t.options n false strategy s p = some (search t strategy s p)) ∨
    t.options.limit.floor = none ∧ search t strategy s p = ⟨.error .divergent, p⟩ ∧
      ∀ n, procedure t.kb t.options n false strategy s p = none := by
  have hadds : ∀ n, t.Leaves s.depth n → (walk t n strategy t.wanted s ⟨[], p⟩).Adds false ⟨[], p⟩
      (procedure t.kb t.options n false strategy s p) := by
    intro n hn
    rw [ht]
    exact realizes_procedure t n s.depth hn strategy false s ⟨[], p⟩ rfl fun _ => rfl
  rcases search_cases t strategy s p with ⟨hne, heq⟩ | ⟨hfloor, heq, hdiv⟩
  · refine .inl ?_
    filter_upwards [levels_eventually_leaves, heq] with n hn hsearch
    have hwalk := hadds n hn
    cases hr : procedure t.kb t.options n false strategy s p with
    | none =>
        rw [hr] at hwalk
        obtain ⟨q, hq⟩ := hwalk
        rw [hsearch, hq] at hne
        exact (hne rfl).elim
    | some r =>
        rw [hr] at hwalk
        rw [hsearch, hwalk.2, Found.extend_report]
  · refine .inr ⟨hfloor, heq, fun n => ?_⟩
    have hwalk := hadds n fun k hk => by simp [hfloor] at hk
    obtain ⟨q, hq⟩ := hdiv n
    cases hr : procedure t.kb t.options n false strategy s p with
    | none => rfl
    | some r =>
        rw [hr] at hwalk
        have hreport := Found.extend_report false p r
        rw [← hwalk.2, hq] at hreport
        exact (hwalk.1 (hreport ▸ rfl)).elim

end Search

namespace Evaluator

open Search

/-- A search with a stack for all results reports what the recursive procedure does: the same
results or the same fault, and the same counts, number of copies and events. Under a limit the
calls of the procedure nest no deeper than the limit leaves room for. Where no bound on their
nesting is enough, the search has no end. -/
theorem search_eq_procedure (ev : Evaluator) (strategy : Strategy) (goals : List Goal)
    (b : Bindings) (depth : Nat) :
    (∀ n r, procedure ev.kb ev.options n false strategy ⟨goals, b, depth⟩ ev.progress = some r →
      ev.search none strategy ⟨goals, b, depth⟩ = (r.outcome, { ev with progress := r.progress })) ∧
    (∀ limit, ev.options.limit.floor = some limit → ∃ r, procedure ev.kb ev.options
      (limit + 1 - depth) false strategy ⟨goals, b, depth⟩ ev.progress = some r) ∧
    ((∀ n, procedure ev.kb ev.options n false strategy ⟨goals, b, depth⟩ ev.progress = none) →
      ev.search none strategy ⟨goals, b, depth⟩ = (.error .divergent, ev)) := by
  have hcases := search_eq_or_divergent (t := ⟨ev.kb, ev.options, none⟩) rfl strategy
    ⟨goals, b, depth⟩ ev.progress
  refine ⟨fun n r hr => ?_, fun limit hlimit => ?_, fun hnone => ?_⟩
  · rcases hcases with heq | ⟨_, _, hnone⟩
    · obtain ⟨m, hm⟩ := heq.exists
      rw [procedure_unique hr hm]
      rfl
    · simp [hnone n] at hr
  · rcases hcases with heq | ⟨hfloor, _, _⟩
    · dsimp only at heq
      rw [levels, hlimit] at heq
      exact ⟨_, Filter.eventually_pure.mp heq⟩
    · simp [hlimit] at hfloor
  · rcases hcases with heq | ⟨_, heq, _⟩
    · obtain ⟨m, hm⟩ := heq.exists
      simp [hnone m] at hm
    · rw [Evaluator.search, heq]

end Evaluator

end Clausal
