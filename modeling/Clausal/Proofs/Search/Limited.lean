import Clausal.Proofs.Search.Congruence
import Clausal.Proofs.Search.Recursion

/-!
# Searches for some of the results

A search that wants a number of results takes the way of the search for all of them until it has
enough, and stops there. So its results are the first ones, there are fewer than it wants only if
there are no more, and a fault that it meets the full search meets as well. The full search may
still meet a fault after the other one has stopped.
-/

namespace Clausal

namespace Search

variable {t : Task} {n k : Nat} {strategy : Strategy} {s : State} {f : Found}

/-- The cases of two walks through a state above the limit that want different numbers of results.
Until a result is noted they do the same, searches for negated goals included. -/
theorem walk_cases_wanted {wanted wanted' : Option Nat} {motive : Walk → Walk → Prop}
    (failed : ∀ e p, motive (.failed e p) (.failed e p))
    (done : ∀ p, motive ({ f with progress := p }.add wanted s.bindings)
      ({ f with progress := p }.add wanted' s.bindings))
    (more : ∀ p, motive (.more { f with progress := p }) (.more { f with progress := p }))
    (next : ∀ s' p, motive (walk t n strategy wanted s' { f with progress := p })
      (walk t n strategy wanted' s' { f with progress := p }))
    (clauses : ∀ sel p, motive
      (walkAttempts (walk t n strategy wanted) (attempts t sel s.depth) { f with progress := p })
      (walkAttempts (walk t n strategy wanted') (attempts t sel s.depth)
      { f with progress := p })) :
    motive (walk t (n + 1) strategy wanted s f) (walk t (n + 1) strategy wanted' s f) := by
  cases hgoals : s.goals with
  | nil =>
      rw [walk_done hgoals, walk_done hgoals]
      exact done _
  | cons g gs =>
      rcases hselect : select t.kb t.options.unifier strategy g gs s.bindings with e | _ | sel
      · rw [walk_unselected hgoals hselect, walk_unselected hgoals hselect]
        exact failed e _
      · rw [walk_pruned hgoals hselect, walk_pruned hgoals hselect]
        exact more _
      · rw [walk_selected hgoals hselect, walk_selected hgoals hselect, walkSelected, walkSelected]
        rcases traceGoal t.options sel s.depth (f.progress.visit s.depth).infer with e | p
        · exact failed e _
        · dsimp only
          by_cases hneg : sel.goal.negated = true
          · rw [if_pos hneg, if_pos hneg]
            rcases walk t n t.options.strategy (some 1)
              ⟨[sel.goal.positive], sel.bindings, s.depth + 1⟩ ⟨[], p⟩ with inside | inside | ⟨e, q⟩
            · exact next _ _
            · exact more _
            · exact failed e q
          · rw [if_neg hneg, if_neg hneg]
            by_cases hbuiltin : isBuiltin sel.goal.predicate = true
            · rw [if_pos hbuiltin, if_pos hbuiltin]
              rcases Builtin.solve t.options.unifier sel.goal sel.bindings with e | _ | b
              · exact failed e p
              · exact more p
              · exact next _ p
            · rw [if_neg hbuiltin, if_neg hbuiltin]
              exact clauses sel p

/-- A walk for `k` results beside the walk for all of them: they end alike, or the first one has its
results and the second one keeps them. -/
inductive Walk.Cut (k : Nat) : Walk → Walk → Prop
  | more {f : Found} (hf : f.results.length < k) : Cut k (.more f) (.more f)
  | failed (e : Fault) (p : Progress) : Cut k (.failed e p) (.failed e p)
  | enough {f : Found} {w : Walk} (hf : f.results.length = k) (hw : w.Grows f) : Cut k (.enough f) w

theorem cut_add (hf : f.results.length < k) (b : Bindings) :
    (f.add (some k) b).Cut k (f.add none b) := by
  have hall : f.add none b = .more { f with results := b :: f.results } := rfl
  rw [hall, Found.add]
  dsimp only
  split
  · next henough =>
    have hle : k ≤ (b :: f.results).length := by simpa [Machine.isEnough] using henough
    refine .enough ?_ (.refl _)
    rw [List.length_cons] at hle ⊢
    omega
  · next henough =>
    refine .more ?_
    simpa [Machine.isEnough] using henough

theorem cut_walkAttempts {go go' : State → Found → Walk} {as : List (Progress → Attempt)}
    (hgo : ∀ s f, f.results.length < k → (go s f).Cut k (go' s f))
    (hgrows : ∀ s f, (go' s f).Grows f) (has : ∀ a ∈ as, ∀ p, p.applications ≤ (a p).2.applications)
    (hf : f.results.length < k) :
    (walkAttempts go as f).Cut k (walkAttempts go' as f) := by
  induction as generalizing f with
  | nil => exact .more hf
  | cons a as ih =>
      have hrest : ∀ a' ∈ as, ∀ p, p.applications ≤ (a' p).2.applications :=
        fun a' ha' => has a' (List.mem_cons_of_mem _ ha')
      rw [walkAttempts, walkAttempts]
      rcases a f.progress with ⟨e | _ | s, p⟩
      · exact .failed e p
      · exact ih hrest hf
      · dsimp only
        have hcut := hgo s { f with progress := p } hf
        generalize go s { f with progress := p } = w, go' s { f with progress := p } = w' at hcut
        cases hcut with
        | more hf' => exact ih hrest hf'
        | failed e q => exact .failed e q
        | enough hf' hw =>
            refine .enough hf' ?_
            cases w' with
            | more f'' => exact (grows_walkAttempts hgrows hrest f'').trans hw
            | enough f'' => exact hw
            | failed e q => trivial

theorem cut_walk (t : Task) (n : Nat) (strategy : Strategy) (s : State)
    (hf : f.results.length < k) :
    (walk t n strategy (some k) s f).Cut k (walk t n strategy none s f) := by
  induction n generalizing s f with
  | zero => exact .failed _ _
  | succ n ih =>
      refine walk_cases_wanted (motive := Walk.Cut k) ?_ ?_ ?_ ?_ ?_
      · exact fun e p => .failed e p
      · exact fun p => cut_add (f := { f with progress := p }) hf s.bindings
      · exact fun p => .more hf
      · exact fun s' p => ih s' hf
      · exact fun sel p => cut_walkAttempts (fun s' f' => ih s') (grows_walk t n strategy none)
          (fun a => applications_le_attempts) hf

/-- The outcome of a search for `k` results beside that of the search for all of them. -/
structure Limits (k : Nat) (limited full : Except Fault (List Bindings)) : Prop where
  take : ∀ rs, full = .ok rs → limited = .ok (rs.take k)
  all : ∀ rs, limited = .ok rs → rs.length < k → full = .ok rs
  fault : ∀ e, limited = .error e → full = .error e

theorem Walk.Cut.limits {w w' : Walk} (h : w.Cut k w') (hall : ∀ f, w' ≠ .enough f) :
    Limits k w.report.outcome w'.report.outcome := by
  cases h with
  | @more f hf =>
      refine ⟨fun rs hrs => ?_, fun rs hrs _ => hrs, fun e he => he⟩
      obtain rfl : f.results.reverse = rs := Except.ok.inj hrs
      rw [List.take_of_length_le (by simpa using hf.le)]
      rfl
  | failed e p =>
      refine ⟨fun rs hrs => ?_, fun rs hrs _ => ?_, fun e he => he⟩
      · cases hrs
      · cases hrs
  | @enough f _ hf hw =>
      refine ⟨fun rs hrs => ?_, fun rs hrs hlt => ?_, fun e he => by cases he⟩
      · cases w' with
        | enough f' => exact (hall f' rfl).elim
        | failed e p => cases hrs
        | more f' =>
            -- Results are kept newest first, so the first ones found are the last ones of the list.
            obtain rfl : f'.results.reverse = rs := Except.ok.inj hrs
            obtain ⟨later, hlater⟩ := hw.results
            have hlength : f.results.reverse.length = k := by rw [List.length_reverse, hf]
            have htake : f'.results.reverse.take k = f.results.reverse := by
              rw [← hlater, List.reverse_append, ← hlength, List.take_left]
            rw [htake]
            rfl
      · obtain rfl : f.results.reverse = rs := Except.ok.inj hrs
        rw [List.length_reverse, hf] at hlt
        exact hlt.false.elim

theorem outcome_wanted (kb : KnowledgeBase) (o : Options) (wanted : Option Nat)
    (strategy : Strategy) (s : State) (p : Progress) :
    ∀ᶠ n in levels o.limit s.depth, (search ⟨kb, o, wanted⟩ strategy s p).outcome =
      (walk ⟨kb, o, none⟩ n strategy wanted s ⟨[], p⟩).report.outcome := by
  -- A walk is told how many results are wanted; what the task says is not looked at.
  have hagree : AgreeOn (fun _ => True) ⟨kb, o, none⟩ ⟨kb, o, wanted⟩ :=
    { options := rfl
      clauses := fun _ _ => ⟨rfl, rfl⟩
      body := fun _ _ _ _ _ _ => trivial
      copy := fun _ _ _ => trivial
      inner := fun _ _ _ => ⟨rfl, trivial⟩ }
  filter_upwards [outcome_eventually_eq ⟨kb, o, wanted⟩ strategy s p] with n hn
  rw [hn, hagree.walk_eq _ _ _ _ _ fun _ _ => trivial]

theorem limits_search (hk : 1 ≤ k) (kb : KnowledgeBase) (o : Options)
    (strategy : Strategy) (s : State) (p : Progress) :
    Limits k (search ⟨kb, o, some k⟩ strategy s p).outcome
      (search ⟨kb, o, none⟩ strategy s p).outcome := by
  obtain ⟨n, hsome, hnone⟩ := ((outcome_wanted kb o (some k) strategy s p).and
    (outcome_wanted kb o none strategy s p)).exists
  rw [hsome, hnone]
  exact (cut_walk _ n strategy s hk).limits (walk_none_ne_enough _ _ _ _ _)

end Search

namespace Evaluator

open Search

theorem limits_ask (ev : Evaluator) (goals : List Goal) :
    ∃ found, Limits 1 found (ev.solve goals ∅).1 ∧ (ev.ask goals).1 = found.map (!·.isEmpty) := by
  rw [solve_of_search ev goals ∅ rfl, ask_of_search ev goals rfl]
  exact ⟨_, limits_search le_rfl ev.kb ev.options ev.options.strategy ⟨goals, ∅, 0⟩ {}, rfl⟩

/-- A search for `k` results returns the first ones of all results; if it returns fewer, they are
all; and its fault is the fault of the full search. So the question whether there is a proof is
answered as the list of all proofs answers it, wherever both have an answer. -/
theorem search_limited {k : Nat} (hk : 1 ≤ k) (ev : Evaluator) (strategy : Strategy)
    (goals : List Goal) (b : Bindings) (depth : Nat) :
    (∀ rs, (ev.search none strategy ⟨goals, b, depth⟩).1 = .ok rs →
      (ev.search (some k) strategy ⟨goals, b, depth⟩).1 = .ok (rs.take k)) ∧
    (∀ rs, (ev.search (some k) strategy ⟨goals, b, depth⟩).1 = .ok rs → rs.length < k →
      (ev.search none strategy ⟨goals, b, depth⟩).1 = .ok rs) ∧
    (∀ e, (ev.search (some k) strategy ⟨goals, b, depth⟩).1 = .error e →
      (ev.search none strategy ⟨goals, b, depth⟩).1 = .error e) ∧
    (∀ rs, (ev.solve goals ∅).1 = .ok rs → rs ≠ [] → (ev.ask goals).1 = .ok true) ∧
    ((ev.ask goals).1 = .ok false ↔ (ev.solve goals ∅).1 = .ok []) ∧
    ∀ e, (ev.ask goals).1 = .error e → (ev.solve goals ∅).1 = .error e := by
  have hsearch := limits_search hk ev.kb ev.options strategy ⟨goals, b, depth⟩ ev.progress
  obtain ⟨found, hfound, hask⟩ := ev.limits_ask goals
  refine ⟨hsearch.take, hsearch.all, hsearch.fault, fun rs hrs hne => ?_,
    ⟨fun h => ?_, fun h => ?_⟩, fun e he => ?_⟩
  · rw [hask, hfound.take rs hrs]
    cases rs with
    | nil => exact (hne rfl).elim
    | cons r rs => rfl
  · rw [hask] at h
    cases found with
    | error e => cases h
    | ok rs =>
        have hempty : rs = [] := by simpa [Except.map] using h
        exact hfound.all [] (by rw [hempty]) Nat.one_pos
  · rw [hask, hfound.take [] h]
    rfl
  · rw [hask] at he
    cases found with
    | error e' =>
        obtain rfl : e' = e := Except.error.inj he
        exact hfound.fault e' rfl
    | ok rs => cases he

/-- Shops that are open unless they are closed, and a way that leads back to where it starts. -/
def street : Evaluator :=
  { kb := ((((((KnowledgeBase.empty.addFact ⟨"shop", [.atom "a"]⟩).addFact
      ⟨"shop", [.atom "b"]⟩).addFact ⟨"shop", [.atom "c"]⟩).addFact ⟨"closed", [.atom "b"]⟩).addRule
      ⟨⟨"open", [.var "S"]⟩, [⟨"shop", [.var "S"], false⟩, ⟨"closed", [.var "S"], true⟩]⟩).addFact
      ⟨"way", []⟩).addRule ⟨⟨"way", []⟩, [⟨"way", [], false⟩]⟩
    options := { limit := .whole 5 } }

theorem search_limited_street :
    ∃ rs, (street.search none .constrained ⟨[⟨"open", [.var "S"], false⟩], ∅, 0⟩).1 = .ok rs ∧
      rs.length = 2 ∧
      (street.search (some 1) .constrained ⟨[⟨"open", [.var "S"], false⟩], ∅, 0⟩).1 =
        .ok (rs.take 1) ∧
      (street.search (some 3) .constrained ⟨[⟨"open", [.var "S"], false⟩], ∅, 0⟩).1 = .ok rs := by
  obtain ⟨rs, hrs, hlength⟩ : ∃ rs,
      (street.search none .constrained ⟨[⟨"open", [.var "S"], false⟩], ∅, 0⟩).1 = .ok rs ∧
        rs.length = 2 := by
    rw [Evaluator.search, search_eq_walk rfl]
    exact ⟨_, rfl, rfl⟩
  have hone :=
    (search_limited le_rfl street .constrained [⟨"open", [.var "S"], false⟩] ∅ 0).1 rs hrs
  have hthree := (search_limited (show 1 ≤ 3 by decide) street .constrained
    [⟨"open", [.var "S"], false⟩] ∅ 0).1 rs hrs
  rw [List.take_of_length_le (by omega)] at hthree
  exact ⟨rs, hrs, hlength, hone, hthree⟩

example : (street.ask [⟨"way", [], false⟩]).1 = .ok true ∧
    (street.solve [⟨"way", [], false⟩] ∅).1 = .error (.depthExceeded 6 (.whole 5)) := by
  rw [ask_of_search street _ (search_eq_walk rfl _ _ _), solve_eq_walk rfl]
  exact ⟨rfl, rfl⟩

end Evaluator

end Clausal
