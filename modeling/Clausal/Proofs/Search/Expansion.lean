import Clausal.Proofs.Search.Completeness
import Clausal.Proofs.Search.Exact

/-!
# Steps of the search and proof trees

A step of the search resolves the goal at one place of a state. It turns proofs of the goals of the
state into proofs of the goals of the successor and back: the premises of the proof of the resolved
goal become proofs in their own right. `Expands` says this once for built-in goals and for clauses;
everything about the proofs that a search finds is derived from it.
-/

namespace Clausal

theorem Bindings.Grown.values_isExact {b b₀ : Bindings} {k : Nat}
    (hb : b.Grown (Term.InState Term.IsExact k) b₀) : b.Values Term.IsExact :=
  fun x v hv => (hb.values x v hv).1

namespace Search

/-! ## The place of the selected goal -/

/-- The best goal is one of those that are ready, if there is any. -/
theorem selectFrom?_ok {kb : KnowledgeBase} {b : Bindings} {i : Nat} {best out : Option (Nat × Nat)}
    {gs : List Goal} (h : selectFrom? kb b i best gs = some out) :
    (out = none ∧ best = none ∧ ∀ g ∈ gs, isReady? g b = some false) ∨
      ∃ j n, out = some (j, n) ∧ ((∃ n', best = some (j, n')) ∨
        ∃ k g, j = i + k ∧ gs[k]? = some g ∧ isReady? g b = some true) := by
  induction gs generalizing i best with
  | nil =>
      obtain rfl : best = out := by simpa [selectFrom?] using h
      cases best with
      | none => exact .inl ⟨rfl, rfl, by simp⟩
      | some e => exact .inr ⟨e.1, e.2, rfl, .inl ⟨e.2, rfl⟩⟩
  | cons g gs ih =>
      rw [selectFrom?] at h
      split at h
      · simp at h
      · next hready =>
        rcases ih h with ⟨rfl, hbest, hall⟩ | ⟨j, n, rfl, hbest | ⟨k, g', rfl, hk, hg'⟩⟩
        · refine .inl ⟨rfl, hbest, fun g' hg' => ?_⟩
          rcases List.mem_cons.mp hg' with rfl | hg'
          · exact hready
          · exact hall g' hg'
        · exact .inr ⟨j, n, rfl, .inl hbest⟩
        · exact .inr ⟨_, n, rfl, .inr ⟨k + 1, g', by omega, hk, hg'⟩⟩
      · next hready =>
        -- The goal itself may have become the best one so far.
        have hbetter : ∀ j n, (j = i ∨ ∃ n', best = some (j, n')) →
            selectFrom? kb b (i + 1) (some (j, n)) gs = some out →
            ∃ j n, out = some (j, n) ∧ ((∃ n', best = some (j, n')) ∨
              ∃ k g', j = i + k ∧ (g :: gs)[k]? = some g' ∧ isReady? g' b = some true) := by
          intro j n hj h'
          rcases ih h' with ⟨_, hnone, _⟩ | ⟨j', n', rfl, ⟨n'', hn''⟩ | ⟨k, g', rfl, hk, hg'⟩⟩
          · simp at hnone
          · obtain ⟨rfl, _⟩ : j = j' ∧ n = n'' := by simpa using hn''
            rcases hj with rfl | hold
            · exact ⟨j, n', rfl, .inr ⟨0, g, by simp, rfl, hready⟩⟩
            · exact ⟨j, n', rfl, .inl hold⟩
          · exact ⟨_, n', rfl, .inr ⟨k + 1, g', by omega, hk, hg'⟩⟩
        right
        dsimp only at h
        split at h
        · next j n =>
          split at h
          · exact hbetter i _ (.inl rfl) h
          · exact hbetter j n (.inr ⟨n, rfl⟩) h
        · exact hbetter i _ (.inl rfl) h

theorem selectIndex?_ok {kb : KnowledgeBase} {b : Bindings} {gs : List Goal} {i : Nat}
    (h : selectIndex? kb gs b = some i) :
    (∃ g, gs[i]? = some g ∧ isReady? g b = some true) ∨
      i = 0 ∧ ∀ g ∈ gs, isReady? g b = some false := by
  rw [selectIndex?] at h
  split at h
  · simp at h
  · next j n hfrom =>
    obtain rfl : j = i := by simpa using h
    rcases selectFrom?_ok hfrom with ⟨hnone, _⟩ | ⟨j', n', hj', ⟨_, hbest⟩ | ⟨k, g, rfl, hg⟩⟩
    · simp at hnone
    · simp at hbest
    · obtain ⟨rfl, _⟩ : j = 0 + k ∧ n = n' := by simpa using hj'
      exact .inl ⟨g, by simpa using hg⟩
  · next hfrom =>
    rcases selectFrom?_ok hfrom with ⟨_, _, hall⟩ | ⟨_, _, hsome, _⟩
    · exact .inr ⟨by simpa using h.symm, hall⟩
    · simp at hsome

/-- A selection by its place among the goals. The constrained strategy takes a goal that is not
ready only if none is. -/
structure SelectsAt (t : Task) (strategy : Strategy) (s : State) (i : Nat)
    (sel : Selection) : Prop where
  selects : Selects t strategy s sel
  goal : s.goals[i]? = some sel.goal
  rest : sel.rest = s.goals.eraseIdx i
  baseline : strategy = .baseline → sel.bindings = s.bindings
  constrained : strategy = .constrained → isReady? sel.goal sel.bindings = some true ∨
    ∀ g ∈ s.goals, isReady? g sel.bindings = some false

theorem Selects.exists_at {t : Task} {strategy : Strategy} {s : State} {sel : Selection}
    (h : Selects t strategy s sel) : ∃ i, SelectsAt t strategy s i sel := by
  obtain ⟨g, gs, hgoals, hselect⟩ := id h
  cases strategy with
  | baseline =>
      obtain rfl : ⟨g, gs, s.bindings⟩ = sel := by simpa [select] using hselect
      exact ⟨0, h, by simp [hgoals], by simp [hgoals], fun _ => rfl, by simp⟩
  | constrained =>
      rw [select] at hselect
      split at hselect
      · simp at hselect
      · simp at hselect
      · next c _ =>
        split at hselect
        · simp at hselect
        · next i hi =>
          obtain rfl := Option.some.inj (Except.ok.inj hselect)
          -- The index is in range, so the default of the look-up is not used.
          have hready : (∃ g', (g :: gs)[i]? = some g' ∧ isReady? g' c = some true) ∨
              i = 0 ∧ ∀ g' ∈ g :: gs, isReady? g' c = some false := selectIndex?_ok hi
          have hgoal : (g :: gs)[i]? = some ((g :: gs).getD i g) := by
            rw [List.getD_eq_getElem?_getD]
            rcases hready with ⟨g', hg', _⟩ | ⟨rfl, _⟩
            · rw [hg', Option.getD_some]
            · rfl
          refine ⟨i, h, by rwa [hgoals], by rw [hgoals], by simp, fun _ => ?_⟩
          rcases hready with ⟨g', hg', htrue⟩ | ⟨_, hall⟩
          · rw [hgoal, Option.some.injEq] at hg'
            rw [← hg'] at htrue
            exact .inl htrue
          · exact .inr (by rwa [hgoals])

/-! ## Proofs before and after a step -/

/-- A way to read goals with built-in predicates: those that hold are accepted, and of the others at
most such as wait for their arguments. -/
structure Reading (N : Goal → Prop) : Prop where
  of_holds : ∀ {g}, g.Holds → N g
  holds_or_waits : ∀ {g}, N g → g.Holds ∨ g.Waits

theorem Reading.holds : Reading Goal.Holds := ⟨id, .inl⟩

theorem Reading.lenient : Reading fun g => g.Holds ∨ g.Waits := ⟨.inl, id⟩

/-- Proofs of the second goals are proofs of the first ones when some of them are made premises. -/
def Grafts (kb : KnowledgeBase) (i m : Nat) (label : Nat × (String → Term))
    (gs gs' : List Goal) : Prop :=
  ∀ N Ds, Reading N → Ds.length = gs'.length →
    (List.Forall₂ (Proves kb N) (ProofTree.graft i label m Ds) gs ↔
    List.Forall₂ (Proves kb N) Ds gs')

theorem grafts_of_premises {kb : KnowledgeBase} {i : Nat} {label : Nat × (String → Term)}
    {gs body : List Goal} {g : Goal} (hg : gs[i]? = some g)
    (hpremises : ∀ N Ds, Reading N → Ds.length = body.length →
      (Proves kb N (.node label Ds) g ↔ List.Forall₂ (Proves kb N) Ds body)) :
    Grafts kb i body.length label gs (body ++ gs.eraseIdx i) := by
  intro N Ds hN hlen
  rw [List.length_append] at hlen
  rw [ProofTree.forall₂_graft_iff hg hlen, hpremises N _ hN (by rw [List.length_take]; omega)]
  constructor
  · rintro ⟨hbody, hrest⟩
    rw [← List.take_append_drop body.length Ds]
    exact List.rel_append hbody hrest
  · intro hall
    exact ⟨List.forall₂_take_append _ _ _ hall, List.forall₂_drop_append _ _ _ hall⟩

/-- The state takes the place of the goals: the one at a place is resolved, under the bindings, by
the clause with a number, which has some goals as its body. -/
structure Expands (kb : KnowledgeBase) (k : Nat) (gs : List Goal) (b : Bindings) (i j m : Nat)
    (s' : State) : Prop where
  length : s'.goals.length = m + (gs.eraseIdx i).length
  premises : ∀ {N θ σ Ds Es}, List.Forall₂ (Proves kb N) Ds (gs.map (Goal.apply θ)) →
    Ds[i]? = some (.node (j, σ) Es) → Es.length = m
  down : ∀ {θ}, s'.bindings.SolvedBy θ → b.SolvedBy θ ∧
    ∃ σ, Grafts kb i m (j, σ) (gs.map (Goal.apply θ)) (s'.goals.map (Goal.apply θ))
  up : ∀ {N θ σ Ds}, Reading N → b.SolvedBy θ → Ds.length = s'.goals.length →
    List.Forall₂ (Proves kb N) (ProofTree.graft i (j, σ) m Ds) (gs.map (Goal.apply θ)) →
    ∃ η : String → Term, (∀ x, IsOld k x → η x = θ x) ∧ s'.bindings.SolvedBy η ∧
      Grafts kb i m (j, σ) (gs.map (Goal.apply θ)) (s'.goals.map (Goal.apply η))

theorem getElem?_map_apply {gs : List Goal} {i : Nat} {g : Goal} (hg : gs[i]? = some g)
    (θ : String → Term) : (gs.map (Goal.apply θ))[i]? = some (g.apply θ) := by
  rw [List.getElem?_map, hg]
  rfl

section Step

variable {kb : KnowledgeBase} {u : Unifier} (hu : u.occursCheck = true) {k : Nat} {b b₀ : Bindings}
  (hb : b.Grown (Term.InState Term.IsExact k) b₀) {gs : List Goal} {i : Nat} {g : Goal}
  (hgoals : ∀ g ∈ gs, g.All (Term.InState Term.IsExact k)) (hg : gs[i]? = some g)
  (hneg : g.negated = false) (depth : Nat)

include hu hb hgoals hg hneg

theorem expands_builtin (hbuiltin : isBuiltin g.predicate = true) {c : Bindings}
    (hsolve : Builtin.solve u g b = .ok (some c)) :
    Expands kb k gs b i 0 0 ⟨gs.eraseIdx i, c, depth⟩ := by
  have hexact : g.All Term.IsExact := fun a ha => (hgoals g (List.mem_of_getElem? hg) a ha).1
  have hsolved := Builtin.solve_solvedBy_iff hu hb.acyclic hb.values_isExact hexact hsolve
  have hgrafts : ∀ θ σ, (g.apply θ).Holds →
      Grafts kb i 0 (0, σ) (gs.map (Goal.apply θ)) ((gs.eraseIdx i).map (Goal.apply θ)) := by
    intro θ σ hholds
    rw [← List.eraseIdx_map]
    have hleaf : ∀ N Ds, Reading N → Ds.length = ([] : List Goal).length →
        (Proves kb N (.node (0, σ) Ds) (g.apply θ) ↔ List.Forall₂ (Proves kb N) Ds []) := by
      intro N Ds hN hlen
      obtain rfl := List.length_eq_zero_iff.mp hlen
      rw [Proves.builtin_iff (g := g.apply θ) hbuiltin]
      exact ⟨fun _ => .nil, fun _ => ⟨⟨σ, rfl⟩, hneg, hN.of_holds hholds⟩⟩
    exact grafts_of_premises (getElem?_map_apply hg θ) hleaf
  refine ⟨by simp, ?_, ?_, ?_⟩
  · intro N θ σ Ds Es hproves hEs
    obtain ⟨D, hD, hroot, _⟩ := (forall₂_eraseIdx_iff (getElem?_map_apply hg θ)).mp hproves
    obtain rfl := Option.some.inj (hEs.symm.trans hD)
    obtain ⟨⟨σ', heq⟩, _⟩ := (Proves.builtin_iff (g := g.apply θ) hbuiltin).mp hroot
    obtain ⟨_, rfl⟩ : σ = σ' ∧ Es = [] := by simpa using heq
    rfl
  · intro θ hθ
    obtain ⟨hbθ, hholds⟩ := (hsolved θ).mp hθ
    exact ⟨hbθ, .var, hgrafts θ .var hholds⟩
  · intro N θ σ Ds hN hθ hlen hproves
    have hlen' : Ds.length = 0 + ((gs.map (Goal.apply θ)).eraseIdx i).length := by
      simp [hlen, List.length_eraseIdx]
    have hroot := ((ProofTree.forall₂_graft_iff (getElem?_map_apply hg θ) hlen' _).mp hproves).1
    obtain ⟨_, _, haccepted⟩ := (Proves.builtin_iff (g := g.apply θ) hbuiltin).mp hroot
    have hholds : (g.apply θ).Holds := by
      rcases hN.holds_or_waits haccepted with hholds | hwaits
      · exact hholds
      · exact (Builtin.not_waits_of_solve hb.acyclic hneg hsolve hθ hwaits).elim
    exact ⟨θ, fun _ _ => rfl, (hsolved θ).mpr ⟨hθ, hholds⟩, hgrafts θ σ hholds⟩

omit hneg in
/-- A copy of a clause and the goal unify, if the goal is an instance of the clause. -/
theorem IsCopy.exists_of_args {r copy : Rule} (hcopy : IsCopy k r copy) {o : Option Bindings}
    (hunify : u.unifyArgs copy.head.args g.args b = .ok o) {θ σ : String → Term} (hθ : b.SolvedBy θ)
    (hargs : r.head.args.map (Term.apply σ) = g.args.map (Term.apply θ)) :
    ∃ c η, o = some c ∧ (∀ x, IsOld k x → η x = θ x) ∧ c.SolvedBy η ∧
      copy.body.map (Goal.apply η) = r.body.map (Goal.apply σ) := by
  have hgoal := hgoals g (List.mem_of_getElem? hg)
  obtain ⟨η, hold, hhead, hbody⟩ := hcopy.exists_copy θ σ
  have hsame : g.args.map (Term.apply η) = g.args.map (Term.apply θ) :=
    List.map_congr_left fun a ha => Term.apply_congr fun x hx => hold x ((hgoal a ha).2 x hx)
  obtain ⟨c, hc, hcη⟩ := (Unifier.unifyArgs_solvedBy_iff hu hb.acyclic hb.values_isExact hcopy.head
    (fun a ha => (hgoal a ha).1) hunify η).mpr
    ⟨hb.solvedBy_congr hold hθ, by rw [hhead, hargs, hsame]⟩
  exact ⟨c, η, hc, hold, hcη, hbody⟩

omit hu hb in
/-- The proofs of the body of a clause are the premises of the proof of the goal. -/
theorem grafts_clause (huser : isBuiltin g.predicate = false) {j : Nat} {r : Rule}
    (hr : (kb.clausesFor g.predicate)[j]? = some r) {θ η σ : String → Term}
    (hold : ∀ x, IsOld k x → η x = θ x)
    (hhead : r.head.args.map (Term.apply σ) = g.args.map (Term.apply θ)) {body : List Goal}
    (hbody : body.map (Goal.apply η) = r.body.map (Goal.apply σ)) :
    Grafts kb i r.body.length (j, σ) (gs.map (Goal.apply θ))
      ((body ++ gs.eraseIdx i).map (Goal.apply η)) := by
  have hrest : (gs.eraseIdx i).map (Goal.apply η) = (gs.map (Goal.apply θ)).eraseIdx i := by
    rw [← List.eraseIdx_map]
    congr 1
    refine List.map_congr_left fun g' hg' => Goal.apply_congr fun x hx => ?_
    obtain ⟨a, ha, hxa⟩ := Term.mem_varsAll.mp hx
    exact hold x ((hgoals g' hg' a ha).2 x hxa)
  rw [List.map_append, hbody, hrest, ← List.length_map (Goal.apply σ)]
  refine grafts_of_premises (getElem?_map_apply hg θ) fun N Ds _ _ => ?_
  rw [Proves.clause_iff (g := g.apply θ) huser hr]
  exact ⟨fun h => h.2.2, fun h => ⟨hneg, hhead, h⟩⟩

theorem expands_clause (huser : isBuiltin g.predicate = false) {j : Nat} {r copy : Rule}
    (hr : (kb.clausesFor g.predicate)[j]? = some r) (hcopy : IsCopy k r copy) {c : Bindings}
    (hunify : u.unifyArgs copy.head.args g.args b = .ok (some c)) :
    Expands kb k gs b i j r.body.length ⟨copy.body ++ gs.eraseIdx i, c, depth⟩ := by
  have hgoal := hgoals g (List.mem_of_getElem? hg)
  have hlength : copy.body.length = r.body.length := by
    obtain ⟨σ, _, hbody⟩ := hcopy.exists_clause .var
    simpa using congrArg List.length hbody
  refine ⟨by simp [hlength], ?_, ?_, ?_⟩
  · intro N θ σ Ds Es hproves hEs
    obtain ⟨D, hD, hroot, _⟩ := (forall₂_eraseIdx_iff (getElem?_map_apply hg θ)).mp hproves
    obtain rfl := Option.some.inj (hEs.symm.trans hD)
    obtain ⟨_, _, hbody⟩ := (Proves.clause_iff (g := g.apply θ) huser hr).mp hroot
    simpa using hbody.length_eq
  · intro θ hθ
    obtain ⟨hbθ, hargs⟩ :=
      (Unifier.unifyArgs_solvedBy_iff hu hb.acyclic hb.values_isExact hcopy.head
      (fun a ha => (hgoal a ha).1) hunify θ).mp ⟨c, rfl, hθ⟩
    obtain ⟨σ, hhead, hbody⟩ := hcopy.exists_clause θ
    have hinstance := hhead.symm.trans hargs
    exact ⟨hbθ, σ, grafts_clause hgoals hg hneg huser hr (fun _ _ => rfl) hinstance hbody⟩
  · intro N θ σ Ds hN hθ hlen hproves
    have hlen' : Ds.length = r.body.length + ((gs.map (Goal.apply θ)).eraseIdx i).length := by
      simp [hlen, hlength, List.length_eraseIdx]
    have hroot := ((ProofTree.forall₂_graft_iff (getElem?_map_apply hg θ) hlen' _).mp hproves).1
    obtain ⟨_, hargs, _⟩ := (Proves.clause_iff (g := g.apply θ) huser hr).mp hroot
    obtain ⟨c', η, hc', hold, hcη, hbody⟩ := hcopy.exists_of_args hu hb hgoals hg hunify hθ hargs
    obtain rfl : c = c' := Option.some.inj hc'
    exact ⟨η, hold, hcη, grafts_clause hgoals hg hneg huser hr hold hargs hbody⟩

end Step

end Search

end Clausal
