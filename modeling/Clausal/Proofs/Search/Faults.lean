import Clausal.Proofs.Search.Recursion
import Clausal.Proofs.Search.Soundness

/-!
# Faults of a search

A search fails in three ways. A state lies too deep, which is found at the depth after the limit,
also in the search for a negated goal. Something that a message shows has no text. Or a term has no
end, which does not happen under acyclic bindings with the occurs check. Without a limit no state
lies too deep, and the search may have no end.
-/

namespace Clausal.Search

/-- A walk that fails does so with a fault of the given kind. -/
def Walk.FailsWith (P : Fault → Prop) : Walk → Prop
  | .failed e _ => P e
  | _ => True

theorem Walk.FailsWith.imp {P P' : Fault → Prop} {w : Walk} (h : w.FailsWith P)
    (hP : ∀ e, P e → P' e) : w.FailsWith P' := by
  cases w with
  | failed e p => exact hP e h
  | more _ | enough _ => trivial

theorem failsWith_walkAttempts {P : Fault → Prop} {go : State → Found → Walk}
    {as : List (Progress → Attempt)} (has : ∀ a ∈ as, ∀ p e, (a p).1 = .error e → P e)
    (hgo : ∀ a ∈ as, ∀ p s f, (a p).1 = .ok (some s) → (go s f).FailsWith P) (f : Found) :
    (walkAttempts go as f).FailsWith P := by
  induction as generalizing f with
  | nil => trivial
  | cons a as ih =>
      have hrest := ih (fun b hb => has b (List.mem_cons_of_mem _ hb)) fun b hb =>
        hgo b (List.mem_cons_of_mem _ hb)
      rw [walkAttempts]
      rcases ha : a f.progress with ⟨e | _ | s, p⟩
      · exact has a List.mem_cons_self f.progress e (by rw [ha])
      · exact hrest _
      · have hs := hgo a List.mem_cons_self f.progress s { f with progress := p } (by rw [ha])
        dsimp only
        cases hwalk : go s { f with progress := p } with
        | more f' => exact hrest f'
        | enough f' => trivial
        | failed e q => rwa [hwalk] at hs

/-- The fault of a walk that has no levels left at a depth. -/
def levelFault (l : Limit) (depth : Nat) : Fault :=
  match l.floor with
  | none => .divergent
  | some _ => .depthExceeded depth l

/-- The faults of a walk with a number of levels left. -/
def WalkFault (t : Task) (n : Nat) (s : State) (e : Fault) : Prop :=
  e = levelFault t.options.limit (s.depth + n) ∨ StepFault t.options.unifier s.bindings e

theorem failsWith_walk (t : Task) (n : Nat) (strategy : Strategy) (wanted : Option Nat) (s : State)
    (f : Found) : (walk t n strategy wanted s f).FailsWith (WalkFault t n s) := by
  induction n generalizing strategy wanted s f with
  | zero =>
      rw [walk, tooDeep]
      cases hfloor : t.options.limit.floor with
      | none =>
          refine .inl ?_
          rw [levelFault, hfloor]
      | some k =>
          dsimp only
          split
          · refine .inl ?_
            rw [levelFault, hfloor, Nat.add_zero]
          · exact .inr (.inl rfl)
  | succ n ih =>
      -- A deeper state has one level less, so its limit is at the same depth.
      have hdeeper : ∀ {strategy : Strategy} {wanted : Option Nat} {s' : State} {f : Found},
          s'.depth = s.depth + 1 → (t.options.unifier.occursCheck = true → s.bindings.Acyclic →
            s'.bindings.Acyclic) →
          (walk t n strategy wanted s' f).FailsWith (WalkFault t (n + 1) s) := by
        intro strategy wanted s' f hdepth hacyclic
        refine (ih strategy wanted s' f).imp fun e he => he.imp (fun he => ?_) fun he => ?_
        · rw [he, hdepth, Nat.add_right_comm, Nat.add_assoc]
        · exact he.of_bindings hacyclic
      have hselected : ∀ {sel : Selection}, Selects t strategy s sel →
          t.options.unifier.occursCheck = true → s.bindings.Acyclic → sel.bindings.Acyclic :=
        fun hsel hu hs => (hsel.sound hu hs).2
      refine walk_cases_faults (motive := Walk.FailsWith (WalkFault t (n + 1) s))
        ?_ ?_ ?_ ?_ ?_ ?_ ?_ ?_
      · intro e p hfails
        cases hfails with
        | select _ h => exact .inr (fault_of_select h)
        | trace hsel h => exact .inr ((fault_of_traceGoal h).of_bindings (hselected hsel))
        | @inner sel p₀ _ _ hsel h =>
            have hinner := @hdeeper t.options.strategy (some 1)
              ⟨[sel.goal.positive], sel.bindings, s.depth + 1⟩ ⟨[], p₀⟩ rfl (hselected hsel)
            rwa [h] at hinner
        | solve hsel h => exact .inr ((Builtin.fault_of_solve h).of_bindings (hselected hsel))
      · intro _
        rw [Found.add]
        dsimp only
        split <;> trivial
      · intro g gs p _ _ _
        trivial
      · intro sel p inside _ _ _ _
        trivial
      · intro sel p inside hsel _ _ _
        exact hdeeper rfl (hselected hsel)
      · intro sel p _ _ _ _ _
        trivial
      · intro sel b p hsel hneg hbuiltin hsolve _
        have hsucc : Successor t strategy s p _ := .builtin hsel hneg hbuiltin hsolve
        exact hdeeper rfl hsucc.acyclic
      · intro sel p hsel hneg hbuiltin _
        refine failsWith_walkAttempts (fun a ha q e he => ?_) (fun a ha q s' f' hs' => ?_) _
        · exact .inr ((fault_of_attempts ha he).of_bindings (hselected hsel))
        · have hsucc := successor_of_attempts hsel hneg hbuiltin ha hs'
          exact hdeeper hsucc.depth_eq hsucc.acyclic

/-- The faults of a search: the limit was exceeded by one, or there is none and the search has no
end, or a step failed. -/
theorem fault_of_search {t : Task} {strategy : Strategy} {s : State} {p : Progress} {e : Fault}
    (h : (search t strategy s p).outcome = .error e) :
    (∃ k, t.options.limit.floor = some k ∧
      e = .depthExceeded (s.depth + (k + 1 - s.depth)) t.options.limit) ∨
    (t.options.limit.floor = none ∧ e = .divergent) ∨
    StepFault t.options.unifier s.bindings e := by
  obtain ⟨n, hn, houtcome⟩ :=
    (levels_eventually_leaves.and (outcome_eventually_eq t strategy s p)).exists
  have hfails := failsWith_walk t n strategy t.wanted s ⟨[], p⟩
  cases hwalk : walk t n strategy t.wanted s ⟨[], p⟩ with
  | failed e' q =>
      rw [hwalk] at houtcome hfails
      obtain rfl := Except.error.inj (h.symm.trans houtcome)
      rcases hfails with hlevel | hstep
      · rw [levelFault] at hlevel
        split at hlevel
        · next hfloor => exact .inr (.inl ⟨hfloor, hlevel⟩)
        · next k hfloor => exact .inl ⟨k, hfloor, hn k hfloor ▸ hlevel⟩
      · exact .inr (.inr hstep)
  | more f | enough f => simp [h, hwalk, Walk.report] at houtcome

end Clausal.Search
