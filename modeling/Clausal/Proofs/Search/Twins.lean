import Clausal.Proofs.Search.Apart
import Clausal.Proofs.Search.Lockstep
import Clausal.Proofs.Search.MapVars
import Mathlib.Logic.Equiv.Basic

/-!
# Twins

Two searches that number their clause copies differently stand in states that are the same up to a
one-to-one renaming. Each of the two makes its copies with a number that is new to its own state, so
when a clause is copied the renaming can be extended: the name of a variable in one copy is
exchanged for its name in the other one, and this moves no name that the states already have.

The renaming is a permutation of all names. It differs from branch to branch, because the number of
a copy may be used again in another branch.
-/

namespace Clausal

/-! ## One entry for each name -/

namespace Bindings

/-- No name has two entries. -/
def Distinct (b : Bindings) : Prop :=
  (b.entries.map Prod.fst).Nodup

theorem distinct_empty : (∅ : Bindings).Distinct := List.nodup_nil

theorem Distinct.get?_of_mem {b : Bindings} (hb : b.Distinct) {x : String} {t : Term}
    (h : (x, t) ∈ b.entries) : b.get? x = some t := by
  rw [get?_eq_lookup]
  rw [Distinct] at hb
  generalize b.entries = es at hb h
  induction es with
  | nil => simp at h
  | cons e es ih =>
      rw [List.map_cons, List.nodup_cons] at hb
      rcases List.mem_cons.mp h with rfl | h
      · simp
      · have hne : x ≠ e.1 := by
          rintro rfl
          exact hb.1 (List.mem_map.mpr ⟨_, h, rfl⟩)
        rw [List.lookup_cons, beq_false_of_ne hne]
        exact ih hb.2 h

theorem Distinct.insert {b : Bindings} (hb : b.Distinct) {x : String} (hx : b.get? x = none)
    (t : Term) : (b.insert x t).Distinct := by
  rw [Distinct, entries_insert, List.map_cons, List.nodup_cons]
  refine ⟨fun hmem => ?_, hb⟩
  obtain ⟨⟨y, u⟩, he, rfl⟩ := List.mem_map.mp hmem
  simp [hb.get?_of_mem he] at hx

end Bindings

namespace Unify

theorem Move.distinct {check : Bool} {p q : Problem} (h : Move check p q) (hp : p.bindings.Acyclic)
    (hd : p.bindings.Distinct) : q.bindings.Distinct := by
  cases h with
  | same | decompose | leaves => exact hd
  | bindLeft hs => exact hd.insert (hp.get?_of_resolve_var hs) _
  | bindRight _ ht => exact hd.insert (hp.get?_of_resolve_var ht) _

theorem Moves.distinct {p q : Problem} (h : Moves true p q) (hp : p.bindings.Acyclic)
    (hd : p.bindings.Distinct) : q.bindings.Distinct := by
  induction h with
  | refl => exact hd
  | tail hmoves hmove ih => exact hmove.distinct (Moves.acyclic hmoves hp) ih

end Unify

namespace Search

section Distinct

variable {t : Task} {strategy : Strategy} {s s' : State} {sel : Selection} {p p' : Progress}
  (hu : t.options.unifier.occursCheck = true)

include hu

theorem Selects.distinct (h : Selects t strategy s sel) (hs : s.bindings.Acyclic)
    (hd : s.bindings.Distinct) : sel.bindings.Distinct := by
  refine (h.keeps (motive := fun c => c.Acyclic ∧ c.Distinct) ⟨hs, hd⟩ ?_).2
  rintro g _ f _ _ b c ⟨hb, hdb⟩ hunify
  have hmoves := Unifier.moves_of_unifyArgs hu hb hunify
  exact ⟨hmoves.acyclic hb, hmoves.distinct hb hdb⟩

theorem Successor.distinct (h : Successor t strategy s p s') (hs : s.bindings.Acyclic)
    (hd : s.bindings.Distinct) : s'.bindings.Distinct := by
  obtain ⟨sel, ps, hsel, hmoves⟩ := h.exists_moves hu hs
  exact hmoves.distinct (hsel.sound hu hs).2 (hsel.distinct hu hs hd)

end Distinct

end Search

/-! ## Renamings of the names in copies -/

/-- A one-to-one renaming that leaves the names of a program as they are. -/
def KeepsNames (ρ : Equiv.Perm String) : Prop :=
  ∀ x, HashFree x → ρ x = x

theorem keepsNames_refl : KeepsNames (Equiv.refl String) := fun _ _ => rfl

/-- The names of a copy with one number are exchanged for those of a copy with another number. Names
that are older than the two copies are renamed as before. -/
theorem KeepsNames.exists_extension {ρ : Equiv.Perm String} (hρ : KeepsNames ρ) (j k : Nat)
    (names : List String) :
    ∃ τ : Equiv.Perm String, KeepsNames τ ∧ (∀ x, IsOld j x → IsOld k (ρ x) → τ x = ρ x) ∧
      ∀ v ∈ names, τ (suffixed (toString j) v) = suffixed (toString k) v := by
  induction names with
  | nil => exact ⟨ρ, hρ, fun _ _ _ => rfl, by simp⟩
  | cons v names ih =>
      obtain ⟨τ, _, hold, hnew⟩ := ih
      -- The swap follows the renaming. It moves no image of an old name and no new name already in
      -- place.
      have hswap : ∀ x, IsOld j x → IsOld k (ρ x) →
          Equiv.swap (τ (suffixed (toString j) v)) (suffixed (toString k) v) (τ x) = ρ x := by
        intro x hx hρx
        rw [hold x hx hρx]
        refine Equiv.swap_apply_of_ne_of_ne (fun heq => ?_) (hρx.ne_suffixed v).symm
        rw [← hold x hx hρx] at heq
        exact hx.ne_suffixed v (τ.injective heq).symm
      refine ⟨τ.trans (Equiv.swap (τ (suffixed (toString j) v)) (suffixed (toString k) v)),
        fun x hx => ?_, hswap, fun w hw => ?_⟩
      · have hfixed := hρ x hx
        exact (hswap x (.inl hx) (.inl (hfixed.symm ▸ hx))).trans hfixed
      · rw [Equiv.trans_apply]
        by_cases hvw : w = v
        · rw [hvw, Equiv.swap_apply_left]
        · have hmem : w ∈ names := (List.mem_cons.mp hw).resolve_left hvw
          rw [hnew w hmem]
          refine Equiv.swap_apply_of_ne_of_ne (fun heq => hvw ?_) fun heq => hvw ?_
          · rw [← hnew w hmem] at heq
            exact suffixed_injective _ (τ.injective heq)
          · exact suffixed_injective _ heq

/-! ## Copies -/

/-- Copies of terms under two numbers. -/
theorem Term.mapVarsAll_of_renames {j k : Nat} {f g : String → String} {τ : Equiv.Perm String}
    {ts : List Term} (hf : ∀ u ∈ ts, u.Renames j f) (hg : ∀ u ∈ ts, u.Renames k g)
    (hτ : ∀ v ∈ Term.varsAll ts, τ (suffixed (toString j) v) = suffixed (toString k) v) :
    Term.mapVarsAll g ts = Term.mapVarsAll τ (Term.mapVarsAll f ts) := by
  rw [Term.mapVarsAll_eq, Term.mapVarsAll_eq, Term.mapVarsAll_eq, List.map_map]
  refine List.map_congr_left fun u hu => ?_
  rw [Function.comp_apply, Term.mapVars_mapVars]
  refine Term.mapVars_congr fun x hx => ?_
  rw [Function.comp_apply, hf u hu x hx, hg u hu x hx, hτ x (Term.mem_varsAll.mpr ⟨u, hu, hx⟩)]

namespace Search

section Copies

variable {mode mode' : RenamingMode} {depth : Nat} {p p' : Progress} {τ : Equiv.Perm String}

theorem copyFact_mapVars {f : Fact} (hf : f.All Term.HashFree)
    (hτ : ∀ v ∈ f.vars, τ (suffixed (toString (p.fresh mode depth)) v) =
      suffixed (toString (p'.fresh mode' depth)) v) :
    (copyFact mode' depth f p').1 = (copyFact mode depth f p).1.mapVars τ := by
  cases hground : f.isGround with
  | true =>
      rw [copyFact, copyFact, if_pos hground, if_pos hground, Fact.mapVars,
        Term.mapVarsAll_of_isGroundAll hground]
  | false =>
      obtain ⟨r, hr, heq⟩ := copyFact_eq hf hground mode depth p
      obtain ⟨r', hr', heq'⟩ := copyFact_eq hf hground mode' depth p'
      rw [heq, heq', Fact.mapVars, Term.mapVarsAll_of_renames hr hr' hτ]
      rfl

theorem copyRule_mapVars {r : Rule} (hr : r.All Term.HashFree)
    (hτ : ∀ v ∈ r.vars, τ (suffixed (toString (p.fresh mode depth)) v) =
      suffixed (toString (p'.fresh mode' depth)) v) :
    (copyRule mode' depth r p').1 = (copyRule mode depth r p).1.mapVars τ := by
  obtain ⟨ρ, hhead, hbody, heq⟩ := copyRule_eq hr mode depth p
  obtain ⟨ρ', hhead', hbody', heq'⟩ := copyRule_eq hr mode' depth p'
  have hfact : r.head.mapVars ρ' = (r.head.mapVars ρ).mapVars τ := by
    rw [Fact.mapVars, Term.mapVarsAll_of_renames hhead hhead' fun v hv =>
      hτ v (Rule.mem_vars.mpr (.inl hv))]
    rfl
  have hgoals :
      r.body.map (Goal.mapVars ρ') = (r.body.map (Goal.mapVars ρ)).map (Goal.mapVars τ) := by
    rw [List.map_map]
    refine List.map_congr_left fun g hg => ?_
    have hvars : ∀ v ∈ g.vars, v ∈ r.vars := fun v hv => Rule.mem_vars.mpr (.inr ⟨g, hg, hv⟩)
    rw [Goal.mapVars, Term.mapVarsAll_of_renames (hbody g hg) (hbody' g hg) fun v hv =>
      hτ v (hvars v hv)]
    rfl
  rw [heq, heq', Rule.mapVars, hfact, hgoals]
  rfl

end Copies

end Search

/-! ## States -/

theorem Bindings.Distinct.mapVars_congr {b : Bindings} (hb : b.Distinct) {f g : String → String}
    (h : ∀ x, b.Mentions x → f x = g x) : b.mapVars f = b.mapVars g := by
  refine Bindings.mapVars_congr fun e he => ?_
  have hget := hb.get?_of_mem he
  exact ⟨h e.1 ⟨e.1, e.2, hget, .inl rfl⟩, Term.mapVars_congr
    fun y hy => h y ⟨e.1, e.2, hget, .inr hy⟩⟩

theorem Bindings.mapVars_refl (b : Bindings) : b.mapVars (Equiv.refl String) = b := by
  ext1
  have hentry : ∀ e ∈ b.entries, (Equiv.refl String e.1, e.2.mapVars (Equiv.refl String)) = e :=
    fun e _ => Prod.ext rfl (Term.mapVars_eq_self fun _ _ => rfl)
  exact (List.map_congr_left hentry).trans (List.map_id' _)

theorem Bindings.Mentions.mapVars {b : Bindings} {x : String} (h : b.Mentions x)
    (ρ : Equiv.Perm String) : (b.mapVars ρ).Mentions (ρ x) := by
  obtain ⟨y, u, hu, hx⟩ := h
  refine ⟨ρ y, u.mapVars ρ, ?_, ?_⟩
  · rw [Bindings.get?_mapVars ρ.injective, hu]
    rfl
  · rcases hx with rfl | hx
    · exact .inl rfl
    · exact .inr (Term.mem_vars_mapVars.mpr ⟨x, hx, rfl⟩)

namespace Search

theorem State.mapVars_congr {s : State} (hd : s.bindings.Distinct) {f g : String → String}
    (h : ∀ x, s.Mentions x → f x = g x) : s.mapVars f = s.mapVars g := by
  have hgoals : s.goals.map (Goal.mapVars f) = s.goals.map (Goal.mapVars g) := by
    refine List.map_congr_left fun goal hgoal => ?_
    rw [Goal.mapVars, Term.mapVarsAll_congr fun x hx => h x (.inl ⟨goal, hgoal, hx⟩)]
    rfl
  rw [State.mapVars, hgoals, hd.mapVars_congr fun x hx => h x (.inr hx)]
  rfl

theorem State.mapVars_refl (s : State) : s.mapVars (Equiv.refl String) = s := by
  have hgoal : ∀ g ∈ s.goals, g.mapVars (Equiv.refl String) = g := by
    intro g _
    have hterm : ∀ u ∈ g.args, u.mapVars (Equiv.refl String) = u :=
      fun u _ => Term.mapVars_eq_self fun _ _ => rfl
    rw [Goal.mapVars, Term.mapVarsAll_eq, List.map_congr_left hterm, List.map_id']
  rw [State.mapVars, List.map_congr_left hgoal, List.map_id', Bindings.mapVars_refl]

theorem State.Mentions.mapVars {s : State} {x : String} (h : s.Mentions x) (ρ : Equiv.Perm String) :
    (s.mapVars ρ).Mentions (ρ x) := by
  rcases h with ⟨g, hg, hx⟩ | hb
  · refine .inl ⟨g.mapVars ρ, List.mem_map_of_mem hg, ?_⟩
    rw [Goal.vars, Goal.args_mapVars, Term.varsAll_mapVarsAll]
    exact List.mem_map_of_mem hx
  · exact .inr (hb.mapVars ρ)

/-- A state of one search and its image in another one, each older than the next
copy of its search. -/
structure State.Twinned (mode mode' : RenamingMode) (b₀ : Bindings) (p p' : Progress)
    (ρ : Equiv.Perm String) (s : State) : Prop where
  keeps : KeepsNames ρ
  distinct : s.bindings.Distinct
  apart : s.Apart (fun _ => True) b₀ (p.fresh mode s.depth)
  image : (s.mapVars ρ).Apart (fun _ => True) b₀ (p'.fresh mode' s.depth)

section Twinned

variable {mode mode' : RenamingMode} {b₀ : Bindings} {p p' q q' : Progress} {ρ : Equiv.Perm String}
  {s : State}

theorem State.Twinned.mono (h : s.Twinned mode mode' b₀ p p' ρ)
    (hp : p.applications ≤ q.applications) (hp' : p'.applications ≤ q'.applications) :
    s.Twinned mode mode' b₀ q q' ρ :=
  ⟨h.keeps, h.distinct, h.apart.mono (fresh_mono (Nat.le_refl _) hp),
    h.image.mono (fresh_mono (Nat.le_refl _) hp')⟩

/-- The renaming can be chosen freely on the names of the next copies. -/
theorem State.Twinned.exists_extension (h : s.Twinned mode mode' b₀ p p' ρ) (names : List String) :
    ∃ τ : Equiv.Perm String, KeepsNames τ ∧ s.mapVars τ = s.mapVars ρ ∧
      ∀ v ∈ names, τ (suffixed (toString (p.fresh mode s.depth)) v) =
        suffixed (toString (p'.fresh mode' s.depth)) v := by
  obtain ⟨τ, hτ, hold, hnew⟩ :=
    h.keeps.exists_extension (p.fresh mode s.depth) (p'.fresh mode' s.depth) names
  exact ⟨τ, hτ, State.mapVars_congr h.distinct fun x hx =>
    hold x (h.apart.isOld hx) (h.image.isOld (hx.mapVars ρ)), hnew⟩

/-- A search starts with the names of a program. -/
theorem State.Twinned.start {goals : List Goal} (hgoals : ∀ g ∈ goals, g.All Term.HashFree)
    {b : Bindings} (hb : b.Acyclic) (hd : b.Distinct) (hnames : ∀ x, b.Mentions x → HashFree x) :
    State.Twinned mode mode' b {} {} (Equiv.refl String) ⟨goals, b, 0⟩ := by
  have hapart : ∀ k, State.Apart (fun _ => True) b k ⟨goals, b, 0⟩ := by
    refine fun k => ⟨⟨hb, .refl b, fun x u hx => ⟨trivial, fun y hy => .inl ?_⟩, fun x u hx =>
      ⟨trivial, fun y hy => .inl ?_⟩⟩, fun g hg a ha => ⟨trivial, fun y hy => .inl ?_⟩⟩
    · obtain rfl : y = x := by simpa [Term.vars] using hy
      exact hnames y ⟨y, u, hx, .inl rfl⟩
    · exact hnames y ⟨x, u, hx, .inr hy⟩
    · exact hgoals g hg a ha y hy
  exact ⟨keepsNames_refl, hd, hapart _, (State.mapVars_refl ⟨goals, b, 0⟩).symm ▸ hapart _⟩

end Twinned

/-! ## Selected goals -/

theorem Selection.mapVars_congr {sel : Selection} {depth : Nat} {f g : String → String}
    (h : (sel.state depth).mapVars f = (sel.state depth).mapVars g) :
    sel.mapVars f = sel.mapVars g := by
  obtain ⟨hgoal, hrest⟩ := List.cons.inj (congrArg State.goals h)
  have hbindings : sel.bindings.mapVars f = sel.bindings.mapVars g := congrArg State.bindings h
  rw [Selection.mapVars, hgoal, hrest, hbindings]
  rfl

def Task.withMode (t : Task) (mode : RenamingMode) : Task :=
  { t with options := { t.options with mode } }

section Selected

variable {t : Task} {strategy : Strategy} {s s' : State} {sel : Selection} {p p' q q' : Progress}
  {ρ τ : Equiv.Perm String} {b₀ : Bindings} {mode' : RenamingMode}

theorem Selects.mapVars (h : Selects t strategy s sel) (ρ : Equiv.Perm String)
    (mode' : RenamingMode) :
    Selects (t.withMode mode') strategy (s.mapVars ρ) (sel.mapVars ρ) := by
  obtain ⟨g, gs, hgoals, hselect⟩ := h
  refine ⟨g.mapVars ρ, gs.map (Goal.mapVars ρ), ?_, ?_⟩
  · rw [State.mapVars, hgoals]
    rfl
  · change select t.kb t.options.unifier strategy _ _ (s.bindings.mapVars ρ) = _
    rw [select_mapVars ρ.injective, hselect]
    rfl

theorem Follows.successor (h : Follows t strategy s p s' p') : Successor t strategy s p s' := by
  cases h with
  | negated hsel hneg _ => exact .negated hsel hneg
  | builtin hsel hneg hbuiltin hsolve _ => exact .builtin hsel hneg hbuiltin hsolve
  | clause hsel hneg hbuiltin hmem hattempt =>
      exact successor_of_attempts hsel hneg hbuiltin hmem (congrArg Prod.fst hattempt)

/-- The renaming of a state that follows may be another one. -/
theorem State.Twinned.follows (t' : Task) (hu : t.options.unifier.occursCheck = true)
    (hkb : t.kb.All Term.HashFree) (hu' : t'.options.unifier.occursCheck = true)
    (hkb' : t'.kb.All Term.HashFree) (h : s.Twinned t.options.mode t'.options.mode b₀ p p' ρ)
    (hfollows : Follows t strategy s p s' q) (hτ : KeepsNames τ)
    (hfollows' : Follows t' strategy (s.mapVars ρ) p' (s'.mapVars τ) q') :
    s'.Twinned t.options.mode t'.options.mode b₀ q q' τ := by
  refine ⟨hτ, ?_, ?_, ?_⟩
  · exact hfollows.successor.distinct hu h.apart.bindings.acyclic h.distinct
  · exact h.apart.follows Term.inherited_true hu hkb.inProgram hfollows
  · exact h.image.follows Term.inherited_true hu' hkb'.inProgram hfollows'

variable (hu : t.options.unifier.occursCheck = true) (hkb : t.kb.All Term.HashFree)

include hu hkb

theorem State.Twinned.selection (h : s.Twinned t.options.mode mode' b₀ p p' ρ)
    (hsel : Selects t strategy s sel) :
    (sel.state s.depth).Twinned t.options.mode mode' b₀ p p' ρ := by
  have hsel' := hsel.mapVars ρ mode'
  refine ⟨h.keeps, hsel.distinct hu h.apart.bindings.acyclic h.distinct, ⟨?_, fun g hg => ?_⟩,
    ⟨?_, fun g hg => ?_⟩⟩
  · exact h.apart.selection Term.inherited_true.hereditary hu hkb.inProgram hsel
  · exact h.apart.goals g (hsel.mem_goals_iff.mpr (List.mem_cons.mp hg))
  · exact h.image.selection (t := t.withMode mode') Term.inherited_true.hereditary hu
      hkb.inProgram hsel'
  · exact h.image.goals g (hsel'.mem_goals_iff.mpr (List.mem_cons.mp hg))

/-- The state that a search for a negated goal starts from. -/
theorem State.Twinned.inner (h : s.Twinned t.options.mode mode' b₀ p p' ρ)
    (hsel : Selects t strategy s sel) :
    State.Twinned t.options.mode mode' b₀ p p' ρ
      ⟨[sel.goal.positive], sel.bindings, s.depth + 1⟩ := by
  have hstate := h.selection hu hkb hsel
  have hdeeper : ∀ {mode : RenamingMode} {p : Progress},
      p.fresh mode s.depth ≤ p.fresh mode (s.depth + 1) :=
      fresh_mono (Nat.le_succ _) (Nat.le_refl _)
  refine ⟨h.keeps, hstate.distinct, .mono ⟨hstate.apart.bindings, fun g hg => ?_⟩ hdeeper,
    .mono ⟨hstate.image.bindings, fun g hg => ?_⟩ hdeeper⟩
  · obtain rfl := List.mem_singleton.mp hg
    exact hstate.apart.goals sel.goal List.mem_cons_self
  · obtain rfl := List.mem_singleton.mp hg
    exact hstate.image.goals (sel.goal.mapVars ρ) List.mem_cons_self

end Selected

/-! ## Attempts -/

/-- Attempts with the same outcome up to a renaming. If the counts were the same before, they are
the same after. -/
def Attempt.Twins (τ : Equiv.Perm String) (p p' : Progress) (a a' : Attempt) : Prop :=
  a'.1 = a.1.map (Option.map (State.mapVars τ)) ∧ (p'.stats = p.stats → a'.2.stats = a.2.stats)

section Attempts

variable {o o' : Options} {sel : Selection} {depth : Nat} {p p' : Progress} {τ : Equiv.Perm String}

theorem tryFact_mapVars {f : Fact} (hf : f.All Term.HashFree) (ho : o'.unifier = o.unifier)
    (hτ : ∀ v ∈ f.vars, τ (suffixed (toString (p.fresh o.mode depth)) v) =
      suffixed (toString (p'.fresh o'.mode depth)) v) :
    Attempt.Twins τ p p' (tryFact o sel depth f p) (tryFact o' (sel.mapVars τ) depth f p') := by
  have hcopy := copyFact_mapVars hf hτ
  have hcounts : p'.stats = p.stats →
      (copyFact o'.mode depth f p').2.stats = (copyFact o.mode depth f p).2.stats :=
      fun hstats => by
    rw [stats_copyFact, stats_copyFact, hstats]
  have hunify :=
    o.unifier.unifyArgs_mapVars τ.injective (copyFact o.mode depth f p).1.args sel.goal.args
    sel.bindings
  have harity : (sel.mapVars τ).goal.arity = sel.goal.arity := Goal.arity_mapVars τ sel.goal
  rw [tryFact, tryFact, harity]
  split
  · exact ⟨rfl, id⟩
  · dsimp only [Selection.mapVars, Goal.args_mapVars]
    rw [hcopy, Fact.mapVars, ho, hunify]
    rcases o.unifier.unifyArgs (copyFact o.mode depth f p).1.args sel.goal.args sel.bindings
      with e | _ | b
    all_goals exact ⟨rfl, hcounts⟩

theorem tryRule_mapVars {r : Rule} (hr : r.All Term.HashFree) (ho : o'.unifier = o.unifier)
    (hτ : ∀ v ∈ r.vars, τ (suffixed (toString (p.fresh o.mode depth)) v) =
      suffixed (toString (p'.fresh o'.mode depth)) v) :
    Attempt.Twins τ p p' (tryRule o sel depth r p) (tryRule o' (sel.mapVars τ) depth r p') := by
  have hcopy := copyRule_mapVars hr hτ
  have hcounts : p'.stats = p.stats →
      (copyRule o'.mode depth r p').2.stats = (copyRule o.mode depth r p).2.stats :=
      fun hstats => by
    rw [stats_copyRule, stats_copyRule, hstats]
  have hunify := o.unifier.unifyArgs_mapVars τ.injective (copyRule o.mode depth r p).1.head.args
    sel.goal.args sel.bindings
  have harity : (sel.mapVars τ).goal.arity = sel.goal.arity := Goal.arity_mapVars τ sel.goal
  rw [tryRule, tryRule, harity]
  split
  · exact ⟨rfl, id⟩
  · dsimp only [Selection.mapVars, Goal.args_mapVars]
    rw [hcopy, Rule.mapVars, Fact.mapVars, ho, hunify]
    rcases o.unifier.unifyArgs (copyRule o.mode depth r p).1.head.args sel.goal.args sel.bindings
      with e | _ | b
    · exact ⟨rfl, hcounts⟩
    · exact ⟨rfl, hcounts⟩
    · refine ⟨?_, fun hstats => ?_⟩
      · simp only [Except.map, Option.map, State.mapVars, List.map_append]
      · dsimp only [Except.map, Option.map, Progress.applyRule]
        rw [hcounts hstats]

/-- Attempts with one clause in two searches: a renaming that takes the names of one copy to the
names of the other one takes the outcomes to each other. -/
def Tried (t t' : Task) (sel sel' : Selection) (depth : Nat) (a a' : Progress → Attempt) : Prop :=
  a ∈ attempts t sel depth ∧ a' ∈ attempts t' sel' depth ∧
    ∃ names : List String, ∀ (p p' : Progress) (τ : Equiv.Perm String), sel' = sel.mapVars τ →
      (∀ v ∈ names, τ (suffixed (toString (p.fresh t.options.mode depth)) v) =
        suffixed (toString (p'.fresh t'.options.mode depth)) v) → Attempt.Twins τ p p' (a p) (a' p')

/-- The clauses of one search are among those of the other one. -/
theorem forall₂_tried {t : Task} (t' : Task) (hkb : t.kb.All Term.HashFree)
    (ho : t'.options.unifier = t.options.unifier) {sel sel' : Selection} (depth : Nat)
    (hpredicate : sel'.goal.predicate = sel.goal.predicate)
    (hfacts : t.kb.factsFor sel.goal.predicate ⊆ t'.kb.factsFor sel.goal.predicate)
    (hrules : t.kb.rulesFor sel.goal.predicate ⊆ t'.kb.rulesFor sel.goal.predicate) :
    List.Forall₂ (Tried t t' sel sel' depth) (attempts t sel depth)
      ((t.kb.factsFor sel.goal.predicate).map (tryFact t'.options sel' depth) ++
        (t.kb.rulesFor sel.goal.predicate).map (tryRule t'.options sel' depth)) := by
  refine forall₂_attempts (fun f hf => ⟨?_, ?_, f.vars, ?_⟩) fun r hr => ⟨?_, ?_, r.vars, ?_⟩
  · exact List.mem_append_left _ (List.mem_map_of_mem hf)
  · exact List.mem_append_left _ (List.mem_map_of_mem (hpredicate ▸ hfacts hf))
  · rintro p p' τ rfl hτ
    exact tryFact_mapVars (hkb.1 f (KnowledgeBase.mem_facts_of_mem_factsFor hf)) ho hτ
  · exact List.mem_append_right _ (List.mem_map_of_mem hr)
  · exact List.mem_append_right _ (List.mem_map_of_mem (hpredicate ▸ hrules hr))
  · rintro p p' τ rfl hτ
    exact tryRule_mapVars (hkb.2 r (KnowledgeBase.mem_rules_of_mem_rulesFor hr)) ho hτ

end Attempts

end Search

end Clausal
