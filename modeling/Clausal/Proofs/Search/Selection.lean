import Clausal.Proofs.Search.Walk
import Clausal.Proofs.Unify.MostGeneral
import Mathlib.Data.List.Forall2
import Mathlib.Data.List.GetD
import Mathlib.Data.List.Perm.Basic

/-!
# What a selection keeps

Propagation and selection only rearrange: the chosen goal and the others are the goals that there
were, and the bindings are extended by unifying goals with ground facts.
-/

namespace Clausal.Search

/-- A positive goal of a user-defined predicate that has one fact and no rules. -/
structure OnlyFact (kb : KnowledgeBase) (g : Goal) (f : Fact) : Prop where
  positive : g.negated = false
  user : isBuiltin g.predicate = false
  facts : kb.factsFor g.predicate = [f]
  rules : kb.rulesFor g.predicate = []

theorem OnlyFact.unique {kb : KnowledgeBase} {g : Goal} {f f' : Fact} (h : OnlyFact kb g f)
    (h' : OnlyFact kb g f') : f = f' := by
  simpa [h.facts] using h'.facts

/-- Propagation has nothing to do for the goal. -/
def Skips (kb : KnowledgeBase) (b : Bindings) (g : Goal) : Prop :=
  ∀ f, OnlyFact kb g f → f.arity = g.arity ∧ (f.isGround = true → hasUnbound g b = false)

/-- What propagation does with the first goal: it passes over it, gives up, or unifies it with its
only fact and goes on. -/
theorem propagate_cons (kb : KnowledgeBase) (u : Unifier) (g : Goal) (gs : List Goal)
    (b : Bindings) :
    Skips kb b g ∧ propagate kb u (g :: gs) b = propagate kb u gs b ∨
      (∃ f, OnlyFact kb g f ∧ f.arity ≠ g.arity) ∧ propagate kb u (g :: gs) b = .ok none ∨
      ∃ f, OnlyFact kb g f ∧ (f.isGround = true ∧ hasUnbound g b = true) ∧
      propagate kb u (g :: gs) b =
        match u.unifyArgs f.args g.args b with
        | .error e => .error e
        | .ok none => .ok none
        | .ok (some b') => propagate kb u gs b' := by
  rw [propagate]
  split
  · next hskip =>
    refine .inl ⟨fun f honly => ?_, rfl⟩
    simp [honly.positive, honly.user] at hskip
  · next huser =>
    rw [Bool.or_eq_true, not_or, Bool.not_eq_true, Bool.not_eq_true] at huser
    split
    · next f hfacts hrules =>
      have honly : OnlyFact kb g f := ⟨huser.1, huser.2, hfacts, hrules⟩
      split
      · next harity => exact .inr (.inl ⟨⟨f, honly, harity⟩, rfl⟩)
      · next harity =>
        split
        · next hready =>
          rw [Bool.and_eq_true] at hready
          exact .inr (.inr ⟨f, honly, hready, rfl⟩)
        · next hready =>
          refine .inl ⟨fun f' honly' => ?_, rfl⟩
          obtain rfl := honly.unique honly'
          exact ⟨not_not.mp harity, fun hground => by simpa [hground] using hready⟩
    · next hnone => exact .inl ⟨fun f honly => (hnone f honly.facts honly.rules).elim, rfl⟩

/-- One of the goals does not unify with its only fact, under bindings with the property. -/
def Refuses (kb : KnowledgeBase) (u : Unifier) (P : Bindings → Prop) (gs : List Goal) : Prop :=
  ∃ g ∈ gs, ∃ f b, OnlyFact kb g f ∧ P b ∧
    (f.arity ≠ g.arity ∨ f.isGround = true ∧ u.unifyArgs f.args g.args b = .ok none)

/-- What propagation can do: it keeps what unifying goals with their only facts keeps, and it gives
up only where such a unification is refused. -/
theorem propagate_cases {kb : KnowledgeBase} {u : Unifier} {motive : Bindings → Prop}
    {gs : List Goal} {b : Bindings} {o : Option Bindings} (h : propagate kb u gs b = .ok o)
    (hb : motive b)
    (step : ∀ g ∈ gs, ∀ f, OnlyFact kb g f → f.isGround = true → ∀ b c, motive b →
      u.unifyArgs f.args g.args b = .ok (some c) → motive c) :
    (∃ c, o = some c ∧ motive c) ∨ o = none ∧ Refuses kb u motive gs := by
  induction gs generalizing b with
  | nil =>
      obtain rfl : some b = o := by simpa [propagate] using h
      exact .inl ⟨b, rfl, hb⟩
  | cons g gs ih =>
      have hrest : ∀ b', motive b' → propagate kb u gs b' = .ok o →
          (∃ c, o = some c ∧ motive c) ∨ o = none ∧ Refuses kb u motive (g :: gs) := by
        intro b' hb' h'
        rcases ih h' hb' fun g' hg' => step g' (List.mem_cons_of_mem _ hg')
          with hsome | ⟨ho, hrefuses⟩
        · exact .inl hsome
        · obtain ⟨g', hg', hfact⟩ := hrefuses
          exact .inr ⟨ho, g', List.mem_cons_of_mem _ hg', hfact⟩
      rcases propagate_cons kb u g gs b with ⟨_, heq⟩ | ⟨⟨f, honly, harity⟩, heq⟩ |
        ⟨f, honly, ⟨hground, _⟩, heq⟩
      · exact hrest b hb (heq ▸ h)
      · obtain rfl : none = o := by simpa [heq] using h
        exact .inr ⟨rfl, g, List.mem_cons_self, f, b, honly, hb, .inl harity⟩
      · rw [heq] at h
        split at h
        · simp at h
        · next hunify =>
          obtain rfl : none = o := by simpa using h
          exact .inr ⟨rfl, g, List.mem_cons_self, f, b, honly, hb, .inr ⟨hground, hunify⟩⟩
        · next b' hunify =>
            exact hrest b' (step g List.mem_cons_self f honly hground b b' hb hunify) h

theorem propagate_keeps {kb : KnowledgeBase} {u : Unifier} {motive : Bindings → Prop}
    {gs : List Goal} {b c : Bindings} (h : propagate kb u gs b = .ok (some c)) (hb : motive b)
    (step : ∀ g ∈ gs, ∀ f, OnlyFact kb g f → f.isGround = true → ∀ b c, motive b →
      u.unifyArgs f.args g.args b = .ok (some c) → motive c) : motive c := by
  rcases propagate_cases h hb step with ⟨c', hc', hkept⟩ | ⟨hnone, _⟩
  · exact Option.some.inj hc' ▸ hkept
  · simp at hnone

/-- With the occurs check, propagation extends the bindings and keeps them acyclic. -/
theorem sound_of_propagate {kb : KnowledgeBase} {u : Unifier} {gs : List Goal} {b c : Bindings}
    (hu : u.occursCheck = true) (hb : b.Acyclic) (h : propagate kb u gs b = .ok (some c)) :
    c.Extends b ∧ c.Acyclic := by
  refine propagate_keeps (motive := fun c => c.Extends b ∧ c.Acyclic) h ⟨.refl b, hb⟩ ?_
  rintro g _ f _ _ b₁ c₁ ⟨hext, hb₁⟩ hunify
  obtain ⟨hgrown, hc₁, _⟩ := (Unifier.moves_of_unifyArgs hu hb₁ hunify).sound hb₁
  exact ⟨hgrown.trans hext, hc₁⟩

/-- What a selection can do: it takes out one of the goals, under the given bindings or what
propagation makes of them, or propagation gives up. -/
theorem select_ok {kb : KnowledgeBase} {u : Unifier} {strategy : Strategy} {g : Goal}
    {gs : List Goal} {b : Bindings} {o : Option Selection}
    (h : select kb u strategy g gs b = .ok o) :
    o = none ∧ propagate kb u (g :: gs) b = .ok none ∨
      ∃ c i, (c = b ∨ propagate kb u (g :: gs) b = .ok (some c)) ∧
        o = some ⟨(pick g gs i).1, (pick g gs i).2, c⟩ := by
  cases strategy with
  | baseline =>
      obtain rfl : some ⟨g, gs, b⟩ = o := by simpa [select] using h
      exact .inr ⟨b, 0, .inl rfl, rfl⟩
  | constrained =>
      rw [select] at h
      split at h
      · simp at h
      · next hprop =>
        obtain rfl : none = o := by simpa using h
        exact .inl ⟨rfl, hprop⟩
      · next c hprop =>
        split at h
        · simp at h
        · next i _ =>
          obtain rfl := Except.ok.inj h
          exact .inr ⟨c, i, .inr hprop, rfl⟩

/-- The choice depends on which goals are ready and on the scores only. -/
theorem selectIndex?_of_forall₂ {kb kb' : KnowledgeBase} {b b' : Bindings} {gs gs' : List Goal}
    (h : List.Forall₂
      (fun g g' => isReady? g' b' = isReady? g b ∧ score kb' g' b' = score kb g b) gs gs') :
    selectIndex? kb' gs' b' = selectIndex? kb gs b := by
  have hfrom : ∀ i best, selectFrom? kb' b' i best gs' = selectFrom? kb b i best gs := by
    induction h with
    | nil => exact fun _ _ => rfl
    | cons hfirst _ ih =>
        intro i best
        simp only [selectFrom?, hfirst.1, hfirst.2, ih]
  rw [selectIndex?, selectIndex?, hfrom]

theorem pick_map (φ : Goal → Goal) (g : Goal) (gs : List Goal) (i : Nat) :
    pick (φ g) (gs.map φ) i = (φ (pick g gs i).1, (pick g gs i).2.map φ) := by
  rw [pick, pick, ← List.map_cons, List.getD_map, List.eraseIdx_map]

theorem mem_pick {g h : Goal} {gs : List Goal} (i : Nat) :
    h ∈ g :: gs ↔ h = (pick g gs i).1 ∨ h ∈ (pick g gs i).2 := by
  rw [pick]
  by_cases hi : i < (g :: gs).length
  · rw [List.getD_eq_getElem _ _ hi, ← List.mem_cons]
    exact (List.getElem_cons_eraseIdx_perm hi).mem_iff.symm
  · have hle : (g :: gs).length ≤ i := Nat.le_of_not_lt hi
    rw [List.getD_eq_default _ _ hle, List.eraseIdx_of_length_le hle]
    simp

namespace Selects

variable {t : Task} {strategy : Strategy} {s : State} {sel : Selection}

theorem bindings_eq (h : Selects t strategy s sel) :
    sel.bindings = s.bindings ∨
      propagate t.kb t.options.unifier s.goals s.bindings = .ok (some sel.bindings) := by
  obtain ⟨g, gs, hgoals, hselect⟩ := h
  rcases select_ok hselect with ⟨hnone, _⟩ | ⟨c, i, hc, hsome⟩
  · simp at hnone
  · obtain rfl := Option.some.inj hsome
    rwa [hgoals]

theorem mem_goals_iff (h : Selects t strategy s sel) {g : Goal} :
    g ∈ s.goals ↔ g = sel.goal ∨ g ∈ sel.rest := by
  obtain ⟨g₀, gs, hgoals, hselect⟩ := h
  rcases select_ok hselect with ⟨hnone, _⟩ | ⟨c, i, _, hsome⟩
  · simp at hnone
  · obtain rfl := Option.some.inj hsome
    rw [hgoals]
    exact mem_pick i

theorem goal_mem (h : Selects t strategy s sel) : sel.goal ∈ s.goals :=
  h.mem_goals_iff.mpr (.inl rfl)

theorem mem_of_mem_rest (h : Selects t strategy s sel) {g : Goal} (hg : g ∈ sel.rest) :
    g ∈ s.goals :=
  h.mem_goals_iff.mpr (.inr hg)

/-- The bindings under which the goal is resolved keep what unifying goals with their
only facts keeps. -/
theorem keeps {motive : Bindings → Prop} (h : Selects t strategy s sel) (hs : motive s.bindings)
    (step : ∀ g ∈ s.goals, ∀ f, OnlyFact t.kb g f → f.isGround = true → ∀ b c, motive b →
      t.options.unifier.unifyArgs f.args g.args b = .ok (some c) → motive c) :
    motive sel.bindings := by
  rcases h.bindings_eq with heq | hprop
  · rwa [heq]
  · exact propagate_keeps hprop hs step

/-- The bindings under which the goal is resolved extend those of the state and stay acyclic. -/
theorem sound (h : Selects t strategy s sel) (hu : t.options.unifier.occursCheck = true)
    (hs : s.bindings.Acyclic) : sel.bindings.Extends s.bindings ∧ sel.bindings.Acyclic := by
  rcases h.bindings_eq with heq | hprop
  · rw [heq]
    exact ⟨.refl _, hs⟩
  · exact sound_of_propagate hu hs hprop

end Selects

end Clausal.Search
