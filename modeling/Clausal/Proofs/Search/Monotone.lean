import Clausal.Proofs.Search.Congruence
import Clausal.Proofs.Search.Modes
import Clausal.Proofs.Search.Soundness

/-!
# More clauses

A clause is added behind the other clauses of its predicate. So a search with more clauses makes
every attempt of the search with fewer of them, in the same order, and other attempts in between.
Without negation these only add results: where the larger search comes to its end, the smaller one
does, and its results are among those of the larger one, in the same order.

Where copies are numbered by their count, the other attempts use up numbers. One renaming for all
results is then built along the two searches. With each copy that both make it is changed on the
names of that copy, which no state and no result has so far.
-/

namespace Clausal

/-! ## Adding clauses -/

def Clause.All (P : Term → Prop) : Clause → Prop
  | .fact f => f.All P
  | .rule r => r.All P

instance (P : Term → Prop) [DecidablePred P] : DecidablePred (Clause.All P)
  | .fact f => inferInstanceAs (Decidable (f.All P))
  | .rule r => inferInstanceAs (Decidable (r.All P))

namespace KnowledgeBase

theorem All.addClauses {kb : KnowledgeBase} {P : Term → Prop} (hkb : kb.All P)
    {clauses : List Clause} (hclauses : ∀ c ∈ clauses, c.All P) :
    (clauses.foldl addClause kb).All P := by
  induction clauses generalizing kb with
  | nil => exact hkb
  | cons c clauses ih =>
      obtain ⟨hc, hrest⟩ := List.forall_mem_cons.mp hclauses
      refine ih ?_ hrest
      cases c with
      | fact f => exact ⟨fun f' hf' => (Groups.mem_all_add.mp hf').elim (hkb.1 f') (· ▸ hc), hkb.2⟩
      | rule r => exact ⟨hkb.1, fun r' hr' => (Groups.mem_all_add.mp hr').elim (hkb.2 r') (· ▸ hc)⟩

end KnowledgeBase

namespace Search

/-! ## A renaming that grows -/

/-- A renaming between two searches. Where copies are numbered by the depth, both number alike. -/
structure IsRenaming (mode : RenamingMode) (ρ : Equiv.Perm String) : Prop where
  keeps : KeepsNames ρ
  eq_refl : mode = .depth → ρ = Equiv.refl String

/-- Neither the name nor its image is the name of a later copy. -/
def Settled (mode : RenamingMode) (p p' : Progress) (ρ : Equiv.Perm String) (x : String) : Prop :=
  mode = .application → IsOld (p.applications + 1) x ∧ IsOld (p'.applications + 1) (ρ x)

/-- A later renaming, which is the same on all that is settled. -/
structure Continues (mode : RenamingMode) (p p' : Progress) (ρ τ : Equiv.Perm String) : Prop where
  isRenaming : IsRenaming mode τ
  agrees : ∀ x, Settled mode p p' ρ x → τ x = ρ x

section Renamings

variable {mode : RenamingMode} {b₀ : Bindings} {p p' q q' : Progress} {ρ τ υ : Equiv.Perm String}
  {s : State}

theorem Continues.refl (h : IsRenaming mode ρ) : Continues mode p p' ρ ρ :=
  ⟨h, fun _ _ => rfl⟩

theorem Continues.settled (h : Continues mode p p' ρ τ) (hp : p.applications ≤ q.applications)
    (hp' : p'.applications ≤ q'.applications) {x : String} (hx : Settled mode p p' ρ x) :
    Settled mode q q' τ x := by
  intro hmode
  obtain ⟨hold, hold'⟩ := hx hmode
  rw [h.agrees x hx]
  exact ⟨hold.mono (Nat.succ_le_succ hp), hold'.mono (Nat.succ_le_succ hp')⟩

theorem Continues.trans (h : Continues mode p p' ρ τ) (hp : p.applications ≤ q.applications)
    (hp' : p'.applications ≤ q'.applications) (h' : Continues mode q q' τ υ) :
    Continues mode p p' ρ υ :=
  ⟨h'.isRenaming, fun x hx => (h'.agrees x (h.settled hp hp' hx)).trans (h.agrees x hx)⟩

theorem IsRenaming.exists_continues (h : IsRenaming mode ρ) (p p' : Progress) (depth : Nat)
    (names : List String) :
    ∃ τ, Continues mode p p' ρ τ ∧ ∀ v ∈ names, τ (suffixed (toString (p.fresh mode depth)) v) =
      suffixed (toString (p'.fresh mode depth)) v := by
  cases mode with
  | depth =>
      obtain rfl := h.eq_refl rfl
      exact ⟨_, .refl h, fun v _ => rfl⟩
  | application =>
      obtain ⟨τ, hτ, hold, hnew⟩ :=
        h.keeps.exists_extension (p.applications + 1) (p'.applications + 1) names
      exact ⟨τ, ⟨⟨hτ, nofun⟩, fun x hx => hold x (hx rfl).1 (hx rfl).2⟩, hnew⟩

theorem State.Twinned.settled (h : s.Twinned mode mode b₀ p p' ρ) {x : String} (hx : s.Mentions x) :
    Settled mode p p' ρ x := by
  rintro rfl
  exact ⟨h.apart.isOld hx, h.image.isOld (hx.mapVars ρ)⟩

theorem State.Twinned.mapVars_eq (h : s.Twinned mode mode b₀ p p' ρ)
    (hτ : Continues mode p p' ρ τ) :
    s.mapVars τ = s.mapVars ρ :=
  State.mapVars_congr h.distinct fun x hx => hτ.agrees x (h.settled hx)

end Renamings

/-! ## One search inside the other -/

/-- What two searches have found: the results of the first one are among those of the second one,
under a renaming that is settled on them. -/
structure Found.Embedded (mode : RenamingMode) (ρ : Equiv.Perm String) (f f' : Found) : Prop where
  sublist : (f.results.map (Bindings.mapVars ρ)).Sublist f'.results
  distinct : ∀ r ∈ f.results, r.Distinct
  settled : ∀ r ∈ f.results, ∀ x, r.Mentions x → Settled mode f.progress f'.progress ρ x

/-- A state of the first search, its image in the second one, and what both have found. -/
structure Meets (mode : RenamingMode) (b₀ : Bindings) (ρ : Equiv.Perm String) (f f' : Found)
    (s : State) : Prop where
  isRenaming : IsRenaming mode ρ
  positive : ∀ g ∈ s.goals, g.negated = false
  twinned : s.Twinned mode mode b₀ f.progress f'.progress ρ
  found : f.Embedded mode ρ f'

/-- If the second walk goes on, so does the first one. -/
def Walk.Inside (mode : RenamingMode) (ρ : Equiv.Perm String) (f f' : Found) (w w' : Walk) : Prop :=
  ∀ f₁', w' = .more f₁' → ∃ f₁ τ, w = .more f₁ ∧ Continues mode f.progress f'.progress ρ τ ∧
    f₁.Embedded mode τ f₁'

section Inside

variable {mode : RenamingMode} {b₀ : Bindings} {ρ τ : Equiv.Perm String} {f f' g' : Found}
  {p p' : Progress} {s : State}

theorem Found.Embedded.continues (h : f.Embedded mode ρ f')
    (hτ : Continues mode f.progress f'.progress ρ τ) (hp : f.progress.applications ≤ p.applications)
    (hg : f'.Before g') : Embedded mode τ { f with progress := p } g' where
  sublist := by
    have hsame : f.results.map (Bindings.mapVars τ) = f.results.map (Bindings.mapVars ρ) :=
      List.map_congr_left fun r hr => (h.distinct r hr).mapVars_congr fun x hx =>
        hτ.agrees x (h.settled r hr x hx)
    dsimp only
    rw [hsame]
    exact h.sublist.trans hg.results.sublist
  distinct := h.distinct
  settled r hr x hx := hτ.settled hp hg.applications (h.settled r hr x hx)

theorem Meets.continues (h : Meets mode b₀ ρ f f' s)
    (hτ : Continues mode f.progress f'.progress ρ τ) {g : Found}
    (hg : f.progress.applications ≤ g.progress.applications) (hg' : f'.Before g')
    (hfound : g.Embedded mode τ g') : Meets mode b₀ τ g g' s := by
  have himage := h.twinned.image
  rw [← h.twinned.mapVars_eq hτ] at himage
  exact ⟨hτ.isRenaming, h.positive,
    .mono ⟨hτ.isRenaming.keeps, h.twinned.distinct, h.twinned.apart, himage⟩ hg
    hg'.applications, hfound⟩

theorem Walk.Inside.of_progress {w w' : Walk}
    (h : Inside mode ρ { f with progress := p } { f' with progress := p' } w w')
    (hρ : IsRenaming mode ρ) (hp : f.progress.applications ≤ p.applications)
    (hp' : f'.progress.applications ≤ p'.applications) : Inside mode ρ f f' w w' := by
  intro f₁' hmore
  obtain ⟨f₁, τ, hw, hτ, hfound⟩ := h f₁' hmore
  exact ⟨f₁, τ, hw, .trans (.refl hρ) hp hp' hτ, hfound⟩

end Inside

theorem walkAttempts_cons_eq_more {go : State → Found → Walk} {a : Progress → Attempt}
    {as : List (Progress → Attempt)} {f f₂ : Found} :
    walkAttempts go (a :: as) f = .more f₂ ↔
      ∃ f₁, walkAttempts go [a] f = .more f₁ ∧ walkAttempts go as f₁ = .more f₂ := by
  rw [walkAttempts_cons]
  cases walkAttempts go [a] f <;> simp

def Task.withKb (t : Task) (kb : KnowledgeBase) : Task :=
  { t with kb }

/-- With a given number of levels left, walks with fewer clauses lie inside walks
with more of them. -/
def Embeds (t : Task) (kb' : KnowledgeBase) (b₀ : Bindings) (n : Nat) : Prop :=
  ∀ ρ s f f', Meets t.options.mode b₀ ρ f f' s →
    Walk.Inside t.options.mode ρ f f' (walk t n .baseline none s f)
      (walk (t.withKb kb') n .baseline none (s.mapVars ρ) f')

section Steps

variable {t : Task} {kb' : KnowledgeBase} {b₀ : Bindings} {n : Nat} {ρ : Equiv.Perm String}
  {f f' : Found} {sel sel' : Selection} {d : Nat}
  (hu : t.options.unifier.occursCheck = true) (hkb : t.kb.All Term.HashFree)
  (hkb' : kb'.All Term.HashFree) (hpositive : t.kb.IsPositive)

theorem before_of_walkAttempts {as : List (Progress → Attempt)} (has : as ⊆ attempts t sel d)
    {f₁ : Found} (h : walkAttempts (walk t n .baseline none) as f = .more f₁) : f.Before f₁ := by
  have hgrows := grows_walkAttempts (grows_walk t n .baseline none)
    (fun a ha => applications_le_attempts (has ha)) f
  rwa [h] at hgrows

include hu hkb hkb' hpositive

theorem Embeds.attempt (ih : Embeds t kb' b₀ n) (hpos : sel.goal.negated = false)
    (huser : isBuiltin sel.goal.predicate = false) {a a' : Progress → Attempt}
    (htried : Tried t (t.withKb kb') sel sel' d a a')
    (h : Meets t.options.mode b₀ ρ f f' (sel.state d)) (hsel : sel' = sel.mapVars ρ) :
    Walk.Inside t.options.mode ρ f f' (walkAttempts (walk t n .baseline none) [a] f)
      (walkAttempts (walk (t.withKb kb') n .baseline none) [a'] f') := by
  subst hsel
  obtain ⟨ha, ha', names, htwins⟩ := htried
  have hgrown := applications_le_attempts ha f.progress
  have hgrown' := applications_le_attempts ha' f'.progress
  obtain ⟨τ, hτ, hnew⟩ := h.isRenaming.exists_continues f.progress f'.progress d names
  obtain ⟨hout, _⟩ := htwins f.progress f'.progress τ
    (Selection.mapVars_congr (h.twinned.mapVars_eq hτ)).symm hnew
  intro f₁' hmore
  rw [walkAttempts_singleton] at hmore ⊢
  rcases hattempt : a f.progress with ⟨e | _ | s, q⟩
  all_goals
    rcases hattempt' : a' f'.progress with ⟨o, q'⟩
    rw [hattempt, hattempt'] at hout
    rw [hattempt] at hgrown
    rw [hattempt'] at hmore hgrown'
    obtain rfl : o = _ := hout
  · simp [Except.map] at hmore
  · obtain rfl : { f' with progress := q' } = f₁' := by simpa [Except.map] using hmore
    exact ⟨_, τ, rfl, hτ, h.found.continues hτ hgrown (before_of_applications hgrown')⟩
  · have hselects := sel.selects_state t d
    have hselects' := (sel.mapVars ρ).selects_state (t.withKb kb') d
    have hsucc := successor_of_attempts hselects hpos huser ha (congrArg Prod.fst hattempt)
    have hs : Meets t.options.mode b₀ τ { f with progress := q } { f' with progress := q' } s :=
      ⟨hτ.isRenaming, hsucc.forall_goals (fun _ _ => id) hpositive.body h.positive,
        h.twinned.follows (t.withKb kb') hu hkb hu hkb' (.clause hselects hpos huser ha hattempt)
          hτ.isRenaming.keeps (.clause hselects' hpos huser ha' hattempt'),
        h.found.continues hτ hgrown (before_of_applications hgrown')⟩
    obtain ⟨f₁, υ, hwalk, hυ, hfound⟩ := ih τ s _ _ hs f₁' hmore
    exact ⟨f₁, υ, hwalk, hτ.trans hgrown hgrown' hυ, hfound⟩

/-- Attempts of the second search only are passed over: they add results. -/
theorem Embeds.attempts (ih : Embeds t kb' b₀ n) (hpos : sel.goal.negated = false)
    (huser : isBuiltin sel.goal.predicate = false) {as as' : List (Progress → Attempt)}
    (htried : List.SublistForall₂ (Tried t (t.withKb kb') sel sel' d) as as')
    (has : as ⊆ Search.attempts t sel d) (has' : as' ⊆ Search.attempts (t.withKb kb') sel' d)
    (h : Meets t.options.mode b₀ ρ f f' (sel.state d)) (hsel : sel' = sel.mapVars ρ) :
    Walk.Inside t.options.mode ρ f f' (walkAttempts (walk t n .baseline none) as f)
      (walkAttempts (walk (t.withKb kb') n .baseline none) as' f') := by
  induction htried generalizing f f' ρ with
  | nil =>
      intro f₁' hmore
      have hbefore := before_of_walkAttempts has' hmore
      exact ⟨f, ρ, rfl, .refl h.isRenaming,
        h.found.continues (.refl h.isRenaming) (Nat.le_refl _) hbefore⟩
  | @cons a a' as as' hfirst _ ihrest =>
      obtain ⟨ha, has⟩ := List.cons_subset.mp has
      obtain ⟨ha', has'⟩ := List.cons_subset.mp has'
      intro f₂' hmore
      obtain ⟨f₁', hone', hrest'⟩ := walkAttempts_cons_eq_more.mp hmore
      obtain ⟨f₁, τ, hone, hτ, hfound⟩ :=
        ih.attempt hu hkb hkb' hpositive hpos huser hfirst h hsel f₁' hone'
      have hbefore := before_of_walkAttempts (by simpa using ha) hone
      have hbefore' := before_of_walkAttempts (by simpa using ha') hone'
      -- The selected state is settled, so the next attempt finds it under the new renaming too.
      have hsel' := hsel.trans (Selection.mapVars_congr (h.twinned.mapVars_eq hτ)).symm
      obtain ⟨f₂, υ, hrest, hυ, hfound₂⟩ := ihrest has has'
        (h.continues hτ hbefore.applications hbefore' hfound) hsel' f₂' hrest'
      exact ⟨f₂, υ, walkAttempts_cons_eq_more.mpr ⟨f₁, hone, hrest⟩,
        hτ.trans hbefore.applications hbefore'.applications hυ, hfound₂⟩
  | @cons_right a' as as' _ ihrest =>
      obtain ⟨ha', has'⟩ := List.cons_subset.mp has'
      intro f₂' hmore
      obtain ⟨f₁', hone', hrest'⟩ := walkAttempts_cons_eq_more.mp hmore
      have hbefore' := before_of_walkAttempts (by simpa using ha') hone'
      have hsame : Continues t.options.mode f.progress f'.progress ρ ρ := .refl h.isRenaming
      obtain ⟨f₂, υ, hrest, hυ, hfound⟩ := ihrest has has'
        (h.continues hsame (Nat.le_refl _) hbefore'
        (h.found.continues hsame (Nat.le_refl _) hbefore')) hsel f₂' hrest'
      exact ⟨f₂, υ, hrest, hsame.trans (Nat.le_refl _) hbefore'.applications hυ, hfound⟩

theorem Embeds.selected (ih : Embeds t kb' b₀ n) (hbelow : t.kb.Below kb')
    (h : Meets t.options.mode b₀ ρ f f' (sel.state d)) {p p' : Progress}
    (hp : p.applications = f.progress.applications)
    (hp' : p'.applications = f'.progress.applications) :
    Walk.Inside t.options.mode ρ f f' (walkSelected t n .baseline none d f sel p)
      (walkSelected (t.withKb kb') n .baseline none d f' (sel.mapVars ρ) p') := by
  have hpos : sel.goal.negated = false := h.positive sel.goal List.mem_cons_self
  have hpos' : (sel.mapVars ρ).goal.negated = false := hpos
  have hkind : isBuiltin (sel.mapVars ρ).goal.predicate = isBuiltin sel.goal.predicate := rfl
  rw [walkSelected, walkSelected]
  rcases traceGoal_mapVars t t.options.mode ρ sel d p p' with
    ⟨e, htrace, htrace'⟩ | ⟨q, q', htrace, htrace', _, _⟩
  all_goals
    change traceGoal (t.withKb kb').options (sel.mapVars ρ) d p' = _ at htrace'
    rw [htrace, htrace']
  · exact fun f₁' hmore => by simp at hmore
  have hq : f.progress.applications ≤ q.applications :=
    Nat.le_of_eq (hp.symm.trans (applications_of_traceGoal htrace).symm)
  have hq' : f'.progress.applications ≤ q'.applications :=
    Nat.le_of_eq (hp'.symm.trans (applications_of_traceGoal htrace').symm)
  have hsame : Continues t.options.mode f.progress f'.progress ρ ρ := .refl h.isRenaming
  have hmeets : Meets t.options.mode b₀ ρ { f with progress := q } { f' with progress := q' }
      (sel.state d) :=
    h.continues hsame hq (before_of_applications hq')
      (h.found.continues hsame hq (before_of_applications hq'))
  refine Walk.Inside.of_progress ?_ h.isRenaming hq hq'
  simp only [hpos, hpos', hkind, Bool.false_eq_true, if_false]
  cases hbuiltin : isBuiltin sel.goal.predicate with
  | true =>
      have hmapped : Builtin.solve (t.withKb kb').options.unifier (sel.mapVars ρ).goal
          (sel.mapVars ρ).bindings = _ :=
        Builtin.solve_mapVars ρ.injective t.options.unifier sel.goal sel.bindings
      simp only [if_true]
      rcases hsolve : Builtin.solve t.options.unifier sel.goal sel.bindings with e | _ | b
      all_goals
        rw [hsolve] at hmapped
        rw [hmapped]
      · exact fun f₁' hmore => by simp [Except.map] at hmore
      · intro f₁' hmore
        obtain rfl : { f' with progress := q' } = f₁' := by simpa [Except.map] using hmore
        exact ⟨_, ρ, rfl, .refl h.isRenaming, hmeets.found⟩
      · have hselects := sel.selects_state t d
        have hselects' := (sel.mapVars ρ).selects_state (t.withKb kb') d
        refine ih ρ ⟨sel.rest, b, d + 1⟩ _ _ ⟨h.isRenaming, ?_, ?_, hmeets.found⟩
        · exact fun g hg => h.positive g (List.mem_cons_of_mem _ hg)
        · exact hmeets.twinned.follows (t.withKb kb') hu hkb hu hkb'
            (.builtin hselects hpos hbuiltin hsolve (Nat.le_refl _)) h.isRenaming.keeps
            (.builtin hselects' hpos hbuiltin hmapped (Nat.le_refl _))
  | false =>
      simp only [Bool.false_eq_true, if_false]
      have hpredicate : (sel.mapVars ρ).goal.predicate = sel.goal.predicate := rfl
      have htried := forall₂_tried (t.withKb kb') hkb rfl d hpredicate
        (hbelow.facts sel.goal.predicate).subset (hbelow.rules sel.goal.predicate).subset
      have hsublist :=
        ((hbelow.facts sel.goal.predicate).map (tryFact t.options (sel.mapVars ρ) d)).append
        ((hbelow.rules sel.goal.predicate).map (tryRule t.options (sel.mapVars ρ) d))
      exact ih.attempts hu hkb hkb' hpositive hpos hbuiltin
        (List.sublistForall₂_iff.mpr ⟨_, htried, hsublist⟩) (List.Subset.refl _)
        (List.Subset.refl _) hmeets rfl

theorem embeds_walk (hbelow : t.kb.Below kb') (b₀ : Bindings) (n : Nat) : Embeds t kb' b₀ n := by
  induction n with
  | zero => exact fun ρ s f f' _ f₁' hmore => by simp [walk] at hmore
  | succ n ih =>
      rintro ρ ⟨_ | ⟨g, gs⟩, b, d⟩ f f' h
      · rw [walk_done rfl, walk_done rfl]
        intro f₁' hmore
        obtain rfl : _ = f₁' := Walk.more.inj hmore
        refine ⟨_, ρ, rfl, .refl h.isRenaming, h.found.sublist.cons_cons _, ?_, ?_⟩
        · exact List.forall_mem_cons.mpr ⟨h.twinned.distinct, h.found.distinct⟩
        · exact List.forall_mem_cons.mpr ⟨fun x hx => h.twinned.settled (.inr hx), h.found.settled⟩
      · rw [walk_selected rfl rfl, walk_selected rfl rfl]
        exact ih.selected hu hkb hkb' hpositive hbelow h rfl rfl

end Steps

end Search

namespace Evaluator

open Search

/-- Without negation the baseline strategy is monotone in the program: where it returns after
clauses are added, it returned before, and its results are still there, in the same order. Where
copies are numbered by the depth they are the same bindings; otherwise one renaming takes all of
them to the later ones. The added clauses may have negated goals. -/
theorem solve_of_addClauses {ev : Evaluator} (hu : ev.options.unifier.occursCheck = true)
    (hstrategy : ev.options.strategy = .baseline) (hkb : ev.kb.All Term.HashFree)
    (hpositive : ev.kb.IsPositive) {clauses : List Clause}
    (hclauses : ∀ c ∈ clauses, c.All Term.HashFree) {goals : List Goal}
    (hgoals : ∀ g ∈ goals, g.negated = false ∧ g.All Term.HashFree) {rs' : List Bindings}
    (h : ((ev.withKb (clauses.foldl KnowledgeBase.addClause ev.kb)).solve goals ∅).1 = .ok rs') :
    ∃ rs, (ev.solve goals ∅).1 = .ok rs ∧ (ev.options.mode = .depth → rs.Sublist rs') ∧
      ∃ ρ : Equiv.Perm String, KeepsNames ρ ∧ (rs.map (Bindings.mapVars ρ)).Sublist rs' := by
  let ev' := ev.withKb (clauses.foldl KnowledgeBase.addClause ev.kb)
  -- Both searches have the same limit, so they may be compared at the same number of levels.
  obtain ⟨n, hsolve, hsolve'⟩ := ((solve_eventually_eq_ok_iff ev goals ∅).and
    (solve_eventually_eq_ok_iff ev' goals ∅)).exists
  obtain ⟨f', hwalk', rfl⟩ := (hsolve' rs').mp h
  let t : Task := ⟨ev.kb, ev.options, none⟩
  have hkb' := hkb.addClauses hclauses
  have hbelow := ev.kb.below_addClauses clauses
  have hstart : Meets t.options.mode ∅ (Equiv.refl String) ⟨[], {}⟩ ⟨[], {}⟩ ⟨goals, ∅, 0⟩ :=
    ⟨⟨keepsNames_refl, fun _ => rfl⟩, fun g hg => (hgoals g hg).1,
      .start (fun g hg => (hgoals g hg).2) Bindings.acyclic_empty Bindings.distinct_empty
        (by simp [Bindings.Mentions]), .slnil, by simp, by simp⟩
  have hinside := embeds_walk hu hkb hkb' hpositive hbelow ∅ n _ _ _ _ hstart
  rw [State.mapVars_refl, ← hstrategy] at hinside
  obtain ⟨f, τ, hwalk, hτ, hfound⟩ := hinside f' hwalk'
  refine ⟨_, (hsolve _).mpr ⟨f, hwalk, rfl⟩, fun hmode => ?_, τ, hτ.isRenaming.keeps, ?_⟩
  · have hself := hfound.sublist
    rw [hτ.isRenaming.eq_refl hmode, List.map_congr_left fun r _ => r.mapVars_refl,
      List.map_id'] at hself
    exact hself.reverse
  · rw [List.map_reverse]
    exact hfound.sublist.reverse

/-- One road, and the towns that can be reached. -/
def roads : Evaluator :=
  { kb := ((KnowledgeBase.empty.addFact ⟨"road", [.atom "a", .atom "b"]⟩).addRule
      ⟨⟨"way", [.var "X", .var "Y"]⟩, [⟨"road", [.var "X", .var "Y"], false⟩]⟩).addRule
      ⟨⟨"way", [.var "X", .var "Z"]⟩,
        [⟨"road", [.var "X", .var "Y"], false⟩, ⟨"way", [.var "Y", .var "Z"], false⟩]⟩
    options := { limit := .whole 9, strategy := .baseline } }

/-- The first fact is tried before the rules, and its copies take up numbers. -/
def newRoads : List Clause :=
  [.fact ⟨"way", [.var "X", .var "X"]⟩, .fact ⟨"road", [.atom "b", .atom "c"]⟩,
    .rule ⟨⟨"way", [.atom "d", .var "Y"]⟩, [⟨"road", [.var "Y", .atom "d"], true⟩]⟩]

def roadsQuery : List Goal := [⟨"way", [.atom "a", .var "W"], false⟩]

theorem solve_of_addClauses_roads :
    ∃ rs rs', (roads.solve roadsQuery ∅).1 = .ok rs ∧
      ((roads.withKb (newRoads.foldl KnowledgeBase.addClause roads.kb)).solve roadsQuery ∅).1 =
        .ok rs' ∧
      rs.length = 1 ∧ rs'.length = 5 ∧
      ∃ ρ : Equiv.Perm String, KeepsNames ρ ∧ (rs.map (Bindings.mapVars ρ)).Sublist rs' := by
  obtain ⟨rs', hrs', hlength'⟩ : ∃ rs', ((roads.withKb (newRoads.foldl KnowledgeBase.addClause
      roads.kb)).solve roadsQuery ∅).1 = .ok rs' ∧ rs'.length = 5 :=
    exists_ok_of_length (by rw [solve_eq_walk rfl]; decide +kernel)
  obtain ⟨rs₁, hrs₁, hlength⟩ : ∃ rs, (roads.solve roadsQuery ∅).1 = .ok rs ∧ rs.length = 1 :=
    exists_ok_of_length (by rw [solve_eq_walk rfl]; decide +kernel)
  obtain ⟨rs, hrs, _, hρ⟩ :=
    @solve_of_addClauses roads rfl rfl (by decide) (by decide) newRoads (by decide)
    roadsQuery (by decide) rs' hrs'
  obtain rfl : rs₁ = rs := Except.ok.inj (hrs₁.symm.trans hrs)
  exact ⟨rs₁, rs', hrs, hrs', hlength, hlength', hρ⟩

end Evaluator

end Clausal
