import Clausal.Proofs.Search.Faults

/-!
# The depth limit

A search that returns never met its limit, so a larger limit changes nothing. A search that is given
up has reached the first depth beyond the limit, however many negated goals it was inside of.
-/

namespace Clausal

namespace Search

/-- A walk that ends without a fault ends the same way in another search. -/
def Walk.Kept (w w' : Walk) : Prop :=
  w.FailsWith (fun _ => False) → w' = w

theorem Walk.kept_refl (w : Walk) : w.Kept w := fun _ => rfl

theorem Walk.kept_failed (e : Fault) (p : Progress) (w' : Walk) : (Walk.failed e p).Kept w' :=
  False.elim

theorem kept_walkAttempts {go go' : State → Found → Walk} (hgo : ∀ s f, (go s f).Kept (go' s f))
    (as : List (Progress → Attempt)) (f : Found) :
    (walkAttempts go as f).Kept (walkAttempts go' as f) := by
  induction as generalizing f with
  | nil => exact Walk.kept_refl _
  | cons a as ih =>
      rw [walkAttempts, walkAttempts]
      rcases a f.progress with ⟨e | _ | s, p⟩
      · exact Walk.kept_refl _
      · exact ih _
      · dsimp only
        have hs := hgo s { f with progress := p }
        generalize go s { f with progress := p } = w, go' s { f with progress := p } = w' at hs
        cases w with
        | failed e q => exact Walk.kept_failed e q _
        | enough f' =>
            obtain rfl := hs trivial
            exact Walk.kept_refl _
        | more f' =>
            obtain rfl := hs trivial
            exact ih f'

def Task.withLimit (t : Task) (limit : Limit) : Task :=
  { t with options := { t.options with limit } }

section Levels

variable {t : Task} {limit : Limit} {k n : Nat}

theorem kept_selected (ih : ∀ strategy wanted s f, (walk t n strategy wanted s f).Kept
      (walk (t.withLimit limit) (n + k) strategy wanted s f))
    (strategy : Strategy) (wanted : Option Nat) (depth : Nat) (f : Found) (sel : Selection)
    (p : Progress) :
    (walkSelected t n strategy wanted depth f sel p).Kept
      (walkSelected (t.withLimit limit) (n + k) strategy wanted depth f sel p) := by
  have htrace : traceGoal (t.withLimit limit).options sel depth p =
      traceGoal t.options sel depth p := rfl
  have hstrategy : (t.withLimit limit).options.strategy = t.options.strategy := rfl
  have hunifier : (t.withLimit limit).options.unifier = t.options.unifier := rfl
  rw [walkSelected, walkSelected, htrace]
  rcases traceGoal t.options sel depth p with e | p
  · exact Walk.kept_refl _
  · dsimp only
    by_cases hneg : sel.goal.negated = true
    · rw [if_pos hneg, if_pos hneg]
      have hinner := ih t.options.strategy (some 1)
        ⟨[sel.goal.positive], sel.bindings, depth + 1⟩ ⟨[], p⟩
      rw [hstrategy]
      generalize walk t n t.options.strategy (some 1)
          ⟨[sel.goal.positive], sel.bindings, depth + 1⟩ ⟨[], p⟩ = w,
        walk (t.withLimit limit) (n + k) t.options.strategy (some 1)
          ⟨[sel.goal.positive], sel.bindings, depth + 1⟩ ⟨[], p⟩ = w' at hinner
      cases w with
      | failed e q => exact Walk.kept_failed e q _
      | enough inside =>
          obtain rfl := hinner trivial
          exact Walk.kept_refl _
      | more inside =>
          obtain rfl := hinner trivial
          exact ih _ _ _ _
    · rw [if_neg hneg, if_neg hneg]
      by_cases hbuiltin : isBuiltin sel.goal.predicate = true
      · rw [if_pos hbuiltin, if_pos hbuiltin]
        rw [hunifier]
        rcases Builtin.solve t.options.unifier sel.goal sel.bindings with e | _ | b
        · exact Walk.kept_refl _
        · exact Walk.kept_refl _
        · exact ih _ _ _ _
      · rw [if_neg hbuiltin, if_neg hbuiltin]
        exact kept_walkAttempts (ih strategy wanted) _ _

/-- With more levels left, a walk that ends without a fault takes the same way. -/
theorem kept_walk (t : Task) (limit : Limit) (k n : Nat) (strategy : Strategy) (wanted : Option Nat)
    (s : State) (f : Found) :
    (walk t n strategy wanted s f).Kept (walk (t.withLimit limit) (n + k) strategy wanted s f) := by
  induction n generalizing strategy wanted s f with
  | zero => exact Walk.kept_failed _ _ _
  | succ n ih =>
      rw [Nat.add_right_comm]
      cases hgoals : s.goals with
      | nil =>
          rw [walk_done hgoals, walk_done hgoals]
          exact Walk.kept_refl _
      | cons g gs =>
          have hsame : select (t.withLimit limit).kb
              (t.withLimit limit).options.unifier strategy g gs s.bindings =
              select t.kb t.options.unifier strategy g gs s.bindings := rfl
          rcases hselect : select t.kb t.options.unifier strategy g gs s.bindings with e | _ | sel
          · rw [walk_unselected hgoals hselect, walk_unselected hgoals (hsame.trans hselect)]
            exact Walk.kept_refl _
          · rw [walk_pruned hgoals hselect, walk_pruned hgoals (hsame.trans hselect)]
            exact Walk.kept_refl _
          · rw [walk_selected hgoals hselect, walk_selected hgoals (hsame.trans hselect)]
            exact kept_selected ih strategy wanted s.depth f sel _

end Levels

/-- Under a larger limit there are at least as many levels. -/
theorem Task.Leaves.eventually_le {limit : Limit} {depth n : Nat} {t : Task} (h : t.Leaves depth n)
    (hlimit : ∀ d, limit.isExceededBy d = true → t.options.limit.isExceededBy d = true) :
    ∀ᶠ n' in levels limit depth, n ≤ n' := by
  cases n with
  | zero => exact .of_forall Nat.zero_le
  | succ n =>
      refine levels_eventually_lt (Bool.eq_false_iff.mpr fun hexceeded => ?_)
      simpa [h.not_exceeded n.lt_succ_self] using hlimit _ hexceeded

theorem search_withLimit {t : Task} {limit : Limit}
    (hlimit : ∀ d, limit.isExceededBy d = true → t.options.limit.isExceededBy d = true)
    {strategy : Strategy} {s : State} {p : Progress} {rs : List Bindings}
    (h : (search t strategy s p).outcome = .ok rs) :
    search (t.withLimit limit) strategy s p = search t strategy s p := by
  rcases search_cases t strategy s p with ⟨_, heq⟩ | ⟨_, heq, _⟩
  · obtain ⟨n, hn, hsearch⟩ := (levels_eventually_leaves.and heq).exists
    have hreturns : (walk t n strategy t.wanted s ⟨[], p⟩).FailsWith fun _ => False := by
      cases hwalk : walk t n strategy t.wanted s ⟨[], p⟩ with
      | failed e q => simp [hsearch, hwalk, Walk.report] at h
      | more _ | enough _ => trivial
    refine search_of_walk (P := (· = search t strategy s p)) (fun q hq => by simp [← hq] at h) ?_
    filter_upwards [hn.eventually_le hlimit] with n' hn'
    obtain ⟨k, rfl⟩ := Nat.exists_eq_add_of_le hn'
    rw [hsearch]
    exact congrArg Walk.report (kept_walk t limit k n strategy t.wanted s ⟨[], p⟩ hreturns)
  · simp [heq] at h

end Search

namespace Evaluator

open Search

def withLimit (ev : Evaluator) (limit : Limit) : Evaluator :=
  { ev with options := { ev.options with limit } }

/-- If a search returns, it returns the same answer with the same progress under any larger limit.
If it is given up, the fault has the first depth beyond the limit, and the limit. -/
theorem limit_transparent {ev : Evaluator} {limit : Limit}
    (hlimit : ∀ d, limit.isExceededBy d = true → ev.options.limit.isExceededBy d = true)
    (goals : List Goal) (b : Bindings) :
    (∀ rs, (ev.solve goals b).1 = .ok rs →
      (ev.withLimit limit).solve goals b = (.ok rs, (ev.solve goals b).2.withLimit limit)) ∧
    (∀ v, (ev.ask goals).1 = .ok v →
      (ev.withLimit limit).ask goals = (.ok v, (ev.ask goals).2.withLimit limit)) ∧
    ∀ d l, (ev.solve goals b).1 = .error (.depthExceeded d l) ∨
        (ev.ask goals).1 = .error (.depthExceeded d l) →
      ∃ n, ev.options.limit.floor = some n ∧ d = n + 1 ∧ l = ev.options.limit := by
  refine ⟨fun rs h => ?_, fun v h => ?_, fun d l h => ?_⟩
  · rw [solve_of_search ev goals b rfl] at h ⊢
    rw [solve_of_search (ev.withLimit limit) goals b (search_withLimit hlimit h)]
    exact Prod.ext h rfl
  · rw [ask_of_search ev goals rfl] at h ⊢
    cases hout : (Search.search ⟨ev.kb, ev.options, some 1⟩ ev.options.strategy ⟨goals, ∅, 0⟩
      {}).outcome with
    | error e => simp [hout, Except.map] at h
    | ok rs =>
        rw [ask_of_search (ev.withLimit limit) goals (search_withLimit hlimit hout)]
        exact Prod.ext h rfl
  · have hfault : ∀ {wanted : Option Nat} {b : Bindings}, (Search.search ⟨ev.kb, ev.options, wanted⟩
        ev.options.strategy ⟨goals, b, 0⟩ {}).outcome = .error (.depthExceeded d l) →
        ∃ n, ev.options.limit.floor = some n ∧ d = n + 1 ∧ l = ev.options.limit := by
      intro wanted b h
      rcases fault_of_search h with ⟨n, hfloor, hdeep⟩ | ⟨_, hdivergent⟩ | hwrite | ⟨hendless, _⟩
      · exact ⟨n, hfloor, by simpa using hdeep⟩
      · simp at hdivergent
      · simp at hwrite
      · simp at hendless
    rcases h with h | h
    · rw [solve_of_search ev goals b rfl] at h
      exact hfault h
    · rw [ask_of_search ev goals rfl] at h
      cases hout : (Search.search ⟨ev.kb, ev.options, some 1⟩ ev.options.strategy ⟨goals, ∅, 0⟩
        {}).outcome with
      | error e =>
          obtain rfl : e = .depthExceeded d l := by simpa [hout, Except.map] using h
          exact hfault hout
      | ok rs => simp [hout, Except.map] at h

/-- A goal that calls itself, inside of negations. -/
def nested : Evaluator :=
  { kb := (((KnowledgeBase.empty.addRule ⟨⟨"loop", []⟩, [⟨"loop", [], false⟩]⟩).addRule
      ⟨⟨"still", []⟩, [⟨"loop", [], true⟩]⟩).addRule
      ⟨⟨"moving", []⟩, [⟨"still", [], true⟩]⟩).addFact ⟨"here", [.atom "a"]⟩
    options := { limit := .whole 6 } }

theorem limit_transparent_nested :
    (∃ d l, (nested.solve [⟨"moving", [], true⟩] ∅).1 = .error (.depthExceeded d l) ∧
      d = 7 ∧ l = .whole 6) ∧
    ∃ rs, (nested.solve [⟨"here", [.var "X"], false⟩, ⟨"here", [.atom "b"], true⟩] ∅).1 = .ok rs ∧
      rs.length = 1 ∧
      ((nested.withLimit (.whole 9)).solve
        [⟨"here", [.var "X"], false⟩, ⟨"here", [.atom "b"], true⟩] ∅).1 = .ok rs := by
  have hlimit : ∀ d, (Limit.whole 9).isExceededBy d = true →
      nested.options.limit.isExceededBy d = true := by
    intro d hd
    simp only [nested, Limit.isExceededBy, Limit.floor, decide_eq_true_eq] at hd ⊢
    omega
  have hdeep : ∃ d l, (nested.solve [⟨"moving", [], true⟩] ∅).1 = .error (.depthExceeded d l) := by
    rw [solve_eq_walk rfl]
    exact ⟨_, _, rfl⟩
  have hfound : ∃ rs,
      (nested.solve [⟨"here", [.var "X"], false⟩, ⟨"here", [.atom "b"], true⟩] ∅).1 =
      .ok rs ∧ rs.length = 1 := by
    rw [solve_eq_walk rfl]
    exact ⟨_, rfl, rfl⟩
  obtain ⟨d, l, hfault⟩ := hdeep
  obtain ⟨rs, hrs, hlength⟩ := hfound
  obtain ⟨n, hn, hd, hl⟩ := (limit_transparent hlimit _ ∅).2.2 d l (.inl hfault)
  obtain rfl : 6 = n := Option.some.inj hn
  refine ⟨⟨d, l, hfault, hd, hl⟩, rs, hrs, hlength, ?_⟩
  rw [(limit_transparent hlimit _ ∅).1 rs hrs]

end Evaluator

end Clausal
