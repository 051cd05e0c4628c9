import Clausal.Proofs.Search.Recursion
import Mathlib.Data.List.Forall2
import Mathlib.Data.Option.Defs

/-!
# Walks in lock step

Two searches that select corresponding goals and whose attempts have corresponding outcomes visit
corresponding states, one after the other. So they end alike. What corresponds is a parameter: two
states and the progress they are visited at, two results, two counts. One of the searches may end
with a fault that excuses the other one.
-/

namespace Clausal.Search

/-- What corresponds to what in two searches. -/
structure Pairing where
  states : Progress → Progress → State → State → Prop
  results : Bindings → Bindings → Prop
  counts : Progress → Progress → Prop
  excused : Fault → Prop

/-- Two outcomes: with related values, with the same fault, or one of them with a fault that
excuses the other. -/
inductive Paired (π : Pairing) {α β : Type} (R : Progress → Progress → α → β → Prop) :
    Except Fault α × Progress → Except Fault β × Progress → Prop
  | ok {a : α} {b : β} {p p' : Progress} (hp : π.counts p p') (h : R p p' a b) :
      Paired π R (.ok a, p) (.ok b, p')
  | error {e : Fault} {p p' : Progress} (hp : π.counts p p') : Paired π R (.error e, p)
      (.error e, p')
  | left {e : Fault} {p : Progress} {y : Except Fault β × Progress} (he : π.excused e) :
      Paired π R (.error e, p) y
  | right {e : Fault} {p' : Progress} {x : Except Fault α × Progress} (he : π.excused e) :
      Paired π R x (.error e, p')

/-- What two walks have found: results that correspond one by one, and counts. -/
structure Found.Paired (π : Pairing) (f f' : Found) : Prop where
  results : List.Forall₂ π.results f.results f'.results
  counts : π.counts f.progress f'.progress

/-- Two walks that end alike; what they have found so far is related if they go on. -/
inductive Walk.Paired (π : Pairing) (R : Found → Found → Prop) : Walk → Walk → Prop
  | more {f f' : Found} (h : R f f') : Paired π R (.more f) (.more f')
  | enough {f f' : Found} (h : f.Paired π f') : Paired π R (.enough f) (.enough f')
  | failed {e : Fault} {p p' : Progress} (hp : π.counts p p') : Paired π R (.failed e p)
      (.failed e p')
  | left {e : Fault} {p : Progress} {w : Walk} (he : π.excused e) : Paired π R (.failed e p) w
  | right {e : Fault} {p : Progress} {w : Walk} (he : π.excused e) : Paired π R w (.failed e p)

/-- The state in which the selected goal is the first one. -/
def Selection.state (sel : Selection) (depth : Nat) : State :=
  ⟨sel.goal :: sel.rest, sel.bindings, depth⟩

theorem Selection.state_injective (depth : Nat) :
    Function.Injective fun sel : Selection => sel.state depth := by
  rintro ⟨g, gs, b⟩ ⟨g', gs', b'⟩ h
  obtain ⟨hgoals, rfl, _⟩ := State.mk.inj h
  obtain ⟨rfl, rfl⟩ := List.cons.inj hgoals
  rfl

theorem Selection.selects_state (sel : Selection) (t : Task) (depth : Nat) :
    Selects t .baseline (sel.state depth) sel :=
  ⟨sel.goal, sel.rest, rfl, rfl⟩

/-- Single steps of two searches correspond. Clauses are compared at the depths with
a property only. -/
structure LockstepAt (D : Nat → Prop) (t t' : Task) (π : Pairing) : Prop where
  visit {p p' : Progress} (d : Nat) : π.counts p p' → π.counts (p.visit d) (p'.visit d)
  infer {p p' : Progress} : π.counts p p' → π.counts p.infer p'.infer
  prune {p p' : Progress} : π.counts p p' → π.counts p.prune p'.prune
  depth {p p' : Progress} {s s' : State} : π.states p p' s s' → s'.depth = s.depth
  mono {p p' q q' : Progress} {s s' : State} : π.states p p' s s' →
    p.applications ≤ q.applications → p'.applications ≤ q'.applications → π.states q q' s s'
  tooDeep {p p' : Progress} {s s' : State} : π.states p p' s s' → π.counts p p' →
    Walk.Paired π (Found.Paired π) (.failed (tooDeep t.options s p).1 (tooDeep t.options s p).2)
      (.failed (tooDeep t'.options s' p').1 (tooDeep t'.options s' p').2)
  done {p p' : Progress} {s s' : State} : π.states p p' s s' → s.goals = [] →
    s'.goals = [] ∧ π.results s.bindings s'.bindings
  select {p p' : Progress} {s s' : State} {g : Goal} {gs : List Goal} (strategy : Strategy) :
    π.states p p' s s' → π.counts p p' → s.goals = g :: gs →
    ∃ g' gs', s'.goals = g' :: gs' ∧
      Search.Paired π (fun p p' => Option.Rel fun sel sel' =>
          π.states p p' (sel.state s.depth) (sel'.state s.depth))
        (select t.kb t.options.unifier strategy g gs s.bindings, p)
        (select t'.kb t'.options.unifier strategy g' gs' s'.bindings, p')
  kind {p p' : Progress} {sel sel' : Selection} {d : Nat} :
    π.states p p' (sel.state d) (sel'.state d) → sel'.goal.negated = sel.goal.negated ∧
      isBuiltin sel'.goal.predicate = isBuiltin sel.goal.predicate
  trace {p p' : Progress} {sel sel' : Selection} {d : Nat} :
    π.states p p' (sel.state d) (sel'.state d) → π.counts p p' →
    Search.Paired π (fun _ _ => π.counts) (traceGoal t.options sel d p, p)
      (traceGoal t'.options sel' d p', p')
  inner {p p' : Progress} {sel sel' : Selection} {d : Nat} :
    π.states p p' (sel.state d) (sel'.state d) → sel.goal.negated = true →
    t'.options.strategy = t.options.strategy ∧
      π.states p p' ⟨[sel.goal.positive], sel.bindings, d + 1⟩
        ⟨[sel'.goal.positive], sel'.bindings, d + 1⟩
  rest {p p' : Progress} {sel sel' : Selection} {d : Nat} :
    π.states p p' (sel.state d) (sel'.state d) → sel.goal.negated = true →
    π.states p p' ⟨sel.rest, sel.bindings, d + 1⟩ ⟨sel'.rest, sel'.bindings, d + 1⟩
  solve {p p' : Progress} {sel sel' : Selection} {d : Nat} :
    π.states p p' (sel.state d) (sel'.state d) → π.counts p p' → sel.goal.negated = false →
    isBuiltin sel.goal.predicate = true →
    Search.Paired π (fun p p' => Option.Rel fun b b' =>
        π.states p p' ⟨sel.rest, b, d + 1⟩ ⟨sel'.rest, b', d + 1⟩)
      (Builtin.solve t.options.unifier sel.goal sel.bindings, p)
      (Builtin.solve t'.options.unifier sel'.goal sel'.bindings, p')
  attempts {p p' : Progress} {sel sel' : Selection} {d : Nat} :
    D d → π.states p p' (sel.state d) (sel'.state d) → sel.goal.negated = false →
    isBuiltin sel.goal.predicate = false →
    List.Forall₂ (fun a a' => ∀ q q', π.states q q' (sel.state d) (sel'.state d) → π.counts q q' →
        Search.Paired π (fun p p' => Option.Rel (π.states p p')) (a q) (a' q'))
      (attempts t sel d) (attempts t' sel' d)

/-- Single steps of two searches correspond at every depth. -/
abbrev Lockstep (t t' : Task) (π : Pairing) : Prop := LockstepAt (fun _ => True) t t' π

variable {D : Nat → Prop} {t t' : Task} {π : Pairing}

/-- Where nothing is excused, two outcomes are the same fault or related values. -/
theorem Paired.of_not_excused {α β : Type} {R : Progress → Progress → α → β → Prop}
    {x : Except Fault α × Progress} {y : Except Fault β × Progress} (h : Paired π R x y)
    (hx : ∀ e, π.excused e → x.1 ≠ .error e) (hy : ∀ e, π.excused e → y.1 ≠ .error e) :
    ((∃ e, x.1 = .error e ∧ y.1 = .error e) ∨ ∃ a b, x.1 = .ok a ∧ y.1 = .ok b ∧ R x.2 y.2 a b) ∧
      π.counts x.2 y.2 := by
  cases h with
  | ok hp h => exact ⟨.inr ⟨_, _, rfl, rfl, h⟩, hp⟩
  | error hp => exact ⟨.inl ⟨_, rfl, rfl⟩, hp⟩
  | left he => exact (hx _ he rfl).elim
  | right he => exact (hy _ he rfl).elim

section Clauses

variable {o o' : Options} {sel sel' : Selection} {d : Nat} {p p' : Progress}

/-- Attempts with the clauses of one predicate are related if the attempts with each clause are. -/
theorem forall₂_attempts {R : (Progress → Attempt) → (Progress → Attempt) → Prop}
    (hfacts : ∀ f ∈ t.kb.factsFor sel.goal.predicate,
      R (Search.tryFact t.options sel d f) (Search.tryFact o' sel' d f))
    (hrules : ∀ r ∈ t.kb.rulesFor sel.goal.predicate,
      R (Search.tryRule t.options sel d r) (Search.tryRule o' sel' d r)) :
    List.Forall₂ R (attempts t sel d)
      ((t.kb.factsFor sel.goal.predicate).map (Search.tryFact o' sel' d) ++
        (t.kb.rulesFor sel.goal.predicate).map (Search.tryRule o' sel' d)) := by
  refine List.rel_append ?_ ?_
  · rw [List.forall₂_map_left_iff, List.forall₂_map_right_iff]
    exact List.forall₂_same.mpr hfacts
  · rw [List.forall₂_map_left_iff, List.forall₂_map_right_iff]
    exact List.forall₂_same.mpr hrules

/-- Attempts with a fact correspond if the unifications do. -/
theorem Paired.tryFact {f : Fact} (harity : sel'.goal.arity = sel.goal.arity) (hp : π.counts p p')
    (h : Paired π (fun q q' => Option.Rel fun b b' =>
        π.states q q' ⟨sel.rest, b, d + 1⟩ ⟨sel'.rest, b', d + 1⟩)
      (o.unifier.unifyArgs (copyFact o.mode d f p).1.args sel.goal.args sel.bindings,
        (copyFact o.mode d f p).2)
      (o'.unifier.unifyArgs (copyFact o'.mode d f p').1.args sel'.goal.args sel'.bindings,
        (copyFact o'.mode d f p').2)) :
    Paired π (fun q q' => Option.Rel (π.states q q')) (tryFact o sel d f p)
      (tryFact o' sel' d f p') := by
  rw [Search.tryFact, Search.tryFact, harity]
  split
  · exact .ok hp .none
  · dsimp only
    generalize o.unifier.unifyArgs _ _ _ = x, o'.unifier.unifyArgs _ _ _ = x',
      (copyFact o.mode d f p).2 = q, (copyFact o'.mode d f p').2 = q' at h ⊢
    cases h with
    | error hq => exact .error hq
    | left he => exact .left he
    | right he => exact .right he
    | ok hq hout =>
        cases hout with
        | none => exact .ok hq .none
        | some hs => exact .ok hq (.some hs)

/-- Attempts with a rule correspond if the unifications do. A success counts the rule. -/
theorem Paired.tryRule {r : Rule} (harity : sel'.goal.arity = sel.goal.arity) (hp : π.counts p p')
    (happly : ∀ q q', π.counts q q' → π.counts q.applyRule q'.applyRule)
    (h : Paired π (fun q q' => Option.Rel fun b b' => π.states q.applyRule q'.applyRule
        ⟨(copyRule o.mode d r p).1.body ++ sel.rest, b, d + 1⟩
        ⟨(copyRule o'.mode d r p').1.body ++ sel'.rest, b', d + 1⟩)
      (o.unifier.unifyArgs (copyRule o.mode d r p).1.head.args sel.goal.args sel.bindings,
        (copyRule o.mode d r p).2)
      (o'.unifier.unifyArgs (copyRule o'.mode d r p').1.head.args sel'.goal.args sel'.bindings,
        (copyRule o'.mode d r p').2)) :
    Paired π (fun q q' => Option.Rel (π.states q q')) (tryRule o sel d r p)
      (tryRule o' sel' d r p') := by
  rw [Search.tryRule, Search.tryRule, harity]
  split
  · exact .ok hp .none
  · dsimp only
    generalize o.unifier.unifyArgs _ _ _ = x, o'.unifier.unifyArgs _ _ _ = x',
      (copyRule o.mode d r p).2 = q, (copyRule o'.mode d r p').2 = q' at h ⊢
    cases h with
    | error hq => exact .error hq
    | left he => exact .left he
    | right he => exact .right he
    | ok hq hout =>
        cases hout with
        | none => exact .ok hq .none
        | some hs => exact .ok (happly _ _ hq) (.some hs)

end Clauses

theorem Found.Paired.withProgress {f f' : Found} (h : f.Paired π f') {p p' : Progress}
    (hp : π.counts p p') : Paired π { f with progress := p } { f' with progress := p' } :=
  ⟨h.results, hp⟩

theorem isEnough_congr {wanted : Option Nat} {rs rs' : List Bindings} (h : rs.length = rs'.length) :
    Machine.isEnough wanted rs = Machine.isEnough wanted rs' := by
  cases wanted with
  | none => rfl
  | some k => rw [Machine.isEnough, Machine.isEnough, h]

theorem Found.Paired.add {f f' : Found} (h : f.Paired π f') (wanted : Option Nat) {b b' : Bindings}
    (hb : π.results b b') : Walk.Paired π (Found.Paired π) (f.add wanted b) (f'.add wanted b') := by
  have hadded : Paired π { f with results := b :: f.results }
      { f' with results := b' :: f'.results } :=
    ⟨.cons hb h.results, h.counts⟩
  rw [Found.add, Found.add, isEnough_congr hadded.results.length_eq]
  dsimp only
  split
  · exact .enough hadded
  · exact .more hadded

theorem paired_walkAttempts {R : Found → Found → Prop} {go go' : State → Found → Walk}
    {as as' : List (Progress → Attempt)}
    (h : List.Forall₂ (fun a a' => ∀ f f', R f f' →
      Walk.Paired π R (walkAttempts go [a] f) (walkAttempts go' [a'] f')) as as')
    {f f' : Found} (hf : R f f') :
    Walk.Paired π R (walkAttempts go as f) (walkAttempts go' as' f') := by
  induction h generalizing f f' with
  | nil => exact .more hf
  | @cons a a' _ _ hfirst _ ih =>
      have hstep := hfirst f f' hf
      rw [walkAttempts_cons, walkAttempts_cons go']
      generalize walkAttempts go [a] f = w, walkAttempts go' [a'] f' = w' at hstep
      cases hstep with
      | more hnext => exact ih hnext
      | enough hfound => exact .enough hfound
      | failed hp => exact .failed hp
      | left he => exact .left he
      | right he => exact .right he

theorem applications_of_walk_more {n : Nat} {strategy : Strategy} {wanted : Option Nat} {s : State}
    {f f₁ : Found} (h : walk t n strategy wanted s f = .more f₁) :
    f.progress.applications ≤ f₁.progress.applications := by
  have hgrows := grows_walk t n strategy wanted s f
  rw [h] at hgrows
  exact hgrows.applications

/-- Related states with a given number of levels left are walked through alike, if the levels
have the property. -/
def Agree (D : Nat → Prop) (t t' : Task) (π : Pairing) (n : Nat) : Prop :=
  ∀ strategy wanted s s' f f', (∀ i < n, D (s.depth + i)) → π.states f.progress f'.progress s s' →
    f.Paired π f' →
    Walk.Paired π (Found.Paired π) (walk t n strategy wanted s f) (walk t' n strategy wanted s' f')

theorem below_succ {n d : Nat} (h : ∀ i < n + 1, D (d + i)) (i : Nat) (hi : i < n) :
    D (d + 1 + i) := by
  rw [Nat.add_assoc, Nat.add_comm 1 i]
  exact h (i + 1) (Nat.succ_lt_succ hi)

section Steps

variable {n : Nat} {strategy : Strategy} {wanted : Option Nat} {sel sel' : Selection} {d : Nat}
  {f f' : Found} {p p' : Progress}

/-- What is related while the clauses for a goal are tried: what is found, and the selection. -/
def Trying (π : Pairing) (sel sel' : Selection) (d : Nat) (f f' : Found) : Prop :=
  f.Paired π f' ∧ π.states f.progress f'.progress (sel.state d) (sel'.state d)

theorem Walk.Paired.of_trying {w w' : Walk} (h : Walk.Paired π (Trying π sel sel' d) w w') :
    Walk.Paired π (Found.Paired π) w w' := by
  cases h with
  | more h => exact .more h.1
  | enough h => exact .enough h
  | failed hp => exact .failed hp
  | left he => exact .left he
  | right he => exact .right he

theorem LockstepAt.attempt (h : LockstepAt D t t' π) (ih : Agree D t t' π n)
    (hD : ∀ i < n + 1, D (d + i)) {a a' : Progress → Attempt} (ha : a ∈ Search.attempts t sel d)
    (ha' : a' ∈ Search.attempts t' sel' d)
    (hpaired : ∀ q q', π.states q q' (sel.state d) (sel'.state d) → π.counts q q' →
      Search.Paired π (fun p p' => Option.Rel (π.states p p')) (a q) (a' q'))
    (hf : Trying π sel sel' d f f') :
    Walk.Paired π (Trying π sel sel' d) (walkAttempts (walk t n strategy wanted) [a] f)
      (walkAttempts (walk t' n strategy wanted) [a'] f') := by
  obtain ⟨hfound, hstates⟩ := hf
  have hstep := hpaired f.progress f'.progress hstates hfound.counts
  have hgrown := applications_le_attempts ha f.progress
  have hgrown' := applications_le_attempts ha' f'.progress
  rw [walkAttempts_singleton, walkAttempts_singleton]
  generalize hx : a f.progress = x, a' f'.progress = x' at hstep hgrown hgrown'
  cases hstep with
  | error hp => exact .failed hp
  | left he => exact .left he
  | right he => exact .right he
  | ok hp hout =>
      cases hout with
      | none => exact .more ⟨hfound.withProgress hp, h.mono hstates hgrown hgrown'⟩
      | @some s s' hs =>
          have hbelow : ∀ i < n, D (s.depth + i) := by
            rw [depth_of_attempts ha (p := f.progress) (by rw [hx])]
            exact below_succ hD
          have hwalk := ih strategy wanted s s' _ _ hbelow hs (hfound.withProgress hp)
          dsimp only
          generalize hw : walk t n strategy wanted s _ = w,
            hw' : walk t' n strategy wanted s' _ = w' at hwalk
          cases hwalk with
          | more hmore =>
              refine .more
                ⟨hmore, h.mono hstates (Nat.le_trans hgrown ?_) (Nat.le_trans hgrown' ?_)⟩
              · exact applications_of_walk_more hw
              · exact applications_of_walk_more hw'
          | enough henough => exact .enough henough
          | failed hp => exact .failed hp
          | left he => exact .left he
          | right he => exact .right he

theorem LockstepAt.negated (h : LockstepAt D t t' π) (ih : Agree D t t' π n)
    (hD : ∀ i < n + 1, D (d + i)) (hneg : sel.goal.negated = true)
    (hstates : π.states p p' (sel.state d) (sel'.state d)) (hf : f.Paired π f')
    (hp : π.counts p p') :
    Walk.Paired π (Found.Paired π)
      (match walk t n t.options.strategy (some 1)
      ⟨[sel.goal.positive], sel.bindings, d + 1⟩ ⟨[], p⟩ with
      | .failed e p => .failed e p
      | .enough inside => .more { f with progress := inside.progress }
      | .more inside => walk t n strategy wanted ⟨sel.rest, sel.bindings, d + 1⟩
        { f with progress := inside.progress })
      (match walk t' n t'.options.strategy (some 1) ⟨[sel'.goal.positive], sel'.bindings, d + 1⟩
        ⟨[], p'⟩ with
      | .failed e p => .failed e p
      | .enough inside => .more { f' with progress := inside.progress }
      | .more inside => walk t' n strategy wanted ⟨sel'.rest, sel'.bindings, d + 1⟩
        { f' with progress := inside.progress }) := by
  obtain ⟨hstrategy, hinner⟩ := h.inner hstates hneg
  have hwalk := ih t.options.strategy (some 1) _ _ ⟨[], p⟩ ⟨[], p'⟩ (below_succ hD) hinner
    ⟨.nil, hp⟩
  rw [hstrategy]
  generalize hw : walk t n t.options.strategy (some 1) _ _ = w,
    hw' : walk t' n t.options.strategy (some 1) _ _ = w' at hwalk
  cases hwalk with
  | more hinside =>
      refine ih strategy wanted _ _ _ _ (below_succ hD) (h.mono (h.rest hstates hneg) ?_ ?_)
        (hf.withProgress hinside.counts)
      · exact applications_of_walk_more hw
      · exact applications_of_walk_more hw'
  | enough hinside => exact .more (hf.withProgress hinside.counts)
  | failed hp => exact .failed hp
  | left he => exact .left he
  | right he => exact .right he

theorem LockstepAt.selected (h : LockstepAt D t t' π) (ih : Agree D t t' π n)
    (hD : ∀ i < n + 1, D (d + i)) (hstates : π.states p p' (sel.state d) (sel'.state d))
    (hf : f.Paired π f') (hp : π.counts p p') :
    Walk.Paired π (Found.Paired π) (walkSelected t n strategy wanted d f sel p)
      (walkSelected t' n strategy wanted d f' sel' p') := by
  have htraced := h.trace hstates hp
  rw [walkSelected, walkSelected]
  generalize htrace : traceGoal t.options sel d p = x, htrace' : traceGoal t'.options sel' d p' = x'
    at htraced
  cases htraced with
  | error hp => exact .failed hp
  | left he => exact .left he
  | right he => exact .right he
  | @ok q q' _ _ _ hq =>
      have hstates : π.states q q' (sel.state d) (sel'.state d) :=
        h.mono hstates (Nat.le_of_eq (applications_of_traceGoal htrace).symm)
          (Nat.le_of_eq (applications_of_traceGoal htrace').symm)
      obtain ⟨hnegated, hkind⟩ := h.kind hstates
      dsimp only
      rw [hnegated, hkind]
      cases hneg : sel.goal.negated with
      | true => exact h.negated ih hD hneg hstates hf hq
      | false =>
          simp only [Bool.false_eq_true, if_false]
          cases hbuiltin : isBuiltin sel.goal.predicate with
          | true =>
              have hsolved := h.solve hstates hq hneg hbuiltin
              simp only [if_true]
              generalize Builtin.solve t.options.unifier sel.goal sel.bindings = y,
                Builtin.solve t'.options.unifier sel'.goal sel'.bindings = y' at hsolved
              cases hsolved with
              | error hp => exact .failed hp
              | left he => exact .left he
              | right he => exact .right he
              | ok hp hout =>
                  cases hout with
                  | none => exact .more (hf.withProgress hp)
                  | some hs =>
                      exact ih strategy wanted _ _ _ _ (below_succ hD) hs (hf.withProgress hp)
          | false =>
              simp only [Bool.false_eq_true, if_false]
              have hattempts := h.attempts (hD 0 n.succ_pos) hstates hneg hbuiltin
              refine (paired_walkAttempts ?_ ⟨hf.withProgress hq, hstates⟩).of_trying
              refine (List.forall₂_iff_get.mpr ⟨hattempts.length_eq, fun i hi hi' => ?_⟩)
              intro f f' hfound
              exact h.attempt ih hD (List.get_mem _ _) (List.get_mem _ _)
                (hattempts.get hi hi') hfound

/-- Searches of which single steps correspond walk alike through corresponding states. -/
theorem LockstepAt.agree (h : LockstepAt D t t' π) (n : Nat) : Agree D t t' π n := by
  induction n with
  | zero =>
      intro strategy wanted s s' f f' _ hs hf
      exact h.tooDeep hs hf.counts
  | succ n ih =>
      intro strategy wanted s s' f f' hD hs hf
      have hdepth := h.depth hs
      have hvisit := h.visit s.depth hf.counts
      cases hgoals : s.goals with
      | nil =>
          obtain ⟨hgoals', hresult⟩ := h.done hs hgoals
          rw [walk_done hgoals, walk_done hgoals', hdepth]
          exact (hf.withProgress hvisit).add wanted hresult
      | cons g gs =>
          have hinfer := h.infer hvisit
          have hstart : π.states (f.progress.visit s.depth).infer
              (f'.progress.visit s.depth).infer s s' :=
            h.mono hs (Nat.le_refl _) (Nat.le_refl _)
          obtain ⟨g', gs', hgoals', hselected⟩ := h.select strategy hstart hinfer hgoals
          generalize hselect : Search.select t.kb t.options.unifier strategy g gs s.bindings = x,
            hselect' : Search.select t'.kb t'.options.unifier strategy g' gs' s'.bindings = x'
            at hselected
          cases hselected with
          | error hp =>
              rw [walk_unselected hgoals hselect, walk_unselected hgoals' hselect', hdepth]
              exact .failed hp
          | left he =>
              rw [walk_unselected hgoals hselect]
              exact .left he
          | right he =>
              rw [walk_unselected hgoals' hselect']
              exact .right he
          | ok hp hout =>
              cases hout with
              | none =>
                  rw [walk_pruned hgoals hselect, walk_pruned hgoals' hselect', hdepth]
                  exact .more (hf.withProgress (h.prune hp))
              | some hsel =>
                  rw [walk_selected hgoals hselect, walk_selected hgoals' hselect', hdepth]
                  exact h.selected ih hD hsel hf hp

theorem Lockstep.agree (h : Lockstep t t' π) (n : Nat) (strategy : Strategy) (wanted : Option Nat)
    (s s' : State) (f f' : Found) (hs : π.states f.progress f'.progress s s') (hf : f.Paired π f') :
    Walk.Paired π (Found.Paired π) (walk t n strategy wanted s f)
      (walk t' n strategy wanted s' f') :=
  LockstepAt.agree h n strategy wanted s s' f f' (fun _ _ => trivial) hs hf

end Steps

/-- How two reports correspond. -/
theorem Walk.Paired.report {w w' : Walk} (h : Walk.Paired π (Found.Paired π) w w') :
    Search.Paired π (fun _ _ => List.Forall₂ π.results) (w.report.outcome, w.report.progress)
      (w'.report.outcome, w'.report.progress) := by
  cases h with
  | more h | enough h => exact .ok h.counts (List.forall₂_reverse_iff.mpr h.results)
  | failed hp => exact .error hp
  | left he => exact .left he
  | right he => exact .right he

/-- Searches in lock step end alike. -/
theorem LockstepAt.search (h : LockstepAt D t t' π) (hlimit : t'.options.limit = t.options.limit)
    (hwanted : t'.wanted = t.wanted) {s s' : State} {p p' : Progress}
    (hD : ∀ d, s.depth ≤ d → t.options.limit.isExceededBy d = false → D d) (strategy : Strategy)
    (hs : π.states p p' s s') (hp : π.counts p p') :
    Search.Paired π (fun _ _ => List.Forall₂ π.results)
      ((search t strategy s p).outcome, (search t strategy s p).progress)
      ((search t' strategy s' p').outcome, (search t' strategy s' p').progress) := by
  refine search_of_walks (P := fun r r' => Search.Paired π (fun _ _ => List.Forall₂ π.results)
    (r.outcome, r.progress) (r'.outcome, r'.progress)) hlimit (h.depth hs) ?_ ?_ (.error hp) ?_
  · rintro q ⟨out, q'⟩ hends hne
    cases hends with
    | error _ => exact (hne rfl).elim
    | left he => exact .left he
    | right he => exact .right he
  · rintro ⟨out, q⟩ q' hends hne
    cases hends with
    | error _ => exact (hne rfl).elim
    | left he => exact .left he
    | right he => exact .right he
  · intro n hn
    rw [hwanted]
    refine (h.agree n strategy t.wanted s s' ⟨[], p⟩ ⟨[], p'⟩ (fun i hi => ?_) hs ⟨.nil, hp⟩).report
    exact hD _ (Nat.le_add_right _ _) (hn.not_exceeded hi)

end Clausal.Search
