import Clausal.Proofs.Search.Reached
import Clausal.Proofs.Search.Renaming
import Clausal.Proofs.Search.Soundness

/-!
# Searches stay standardised apart

In every state that a search reaches, the bindings are acyclic and extend those it started with, and
every name is free of `#` or carries the number of a copy that was made on the way to the state. So
a clause copy, which gets the next number, shares no name with its state.

The same invariant carries any property of terms that is passed on to arguments, to renamed copies
and to the values of arithmetic expressions.
-/

namespace Clausal

/-! ## Terms of states -/

namespace Term

/-- A property that arguments, renamed copies and values of expressions inherit. -/
structure Inherited (Q : Term → Prop) : Prop extends Copied Q where
  value : ∀ {b : Bindings} {u n}, b.Acyclic → b.Values Q → Q u → b.evaluate u = .ok n →
    Q n.normalize.toTerm

theorem Inherited.value_inState {Q : Term → Prop} (hQ : Inherited Q) {k : Nat} {b : Bindings}
    {u : Term} {n : Number} (hb : b.Acyclic) (hvalues : b.Values (InState Q k))
    (hu : u.InState Q k) (h : b.evaluate u = .ok n) : n.normalize.toTerm.InState Q k := by
  refine ⟨hQ.value hb (fun x v hv => (hvalues x v hv).1) hu.1 h, fun x hx => ?_⟩
  cases hn : n.normalize <;> simp [hn, Number.toTerm, vars] at hx

theorem inherited_true : Inherited fun _ => True :=
  ⟨⟨fun _ _ _ _ _ => trivial, fun _ _ => trivial⟩, fun _ _ _ _ => trivial⟩

end Term

/-! ## Bindings -/

/-- Acyclic bindings that extend given ones, over terms with a property. -/
structure Bindings.Grown (P : Term → Prop) (b b₀ : Bindings) : Prop where
  acyclic : b.Acyclic
  extends_start : b.Extends b₀
  keys : b.Keys P
  values : b.Values P

namespace Bindings.Grown

variable {P P' : Term → Prop} {b₀ b c : Bindings}

theorem mono (h : b.Grown P b₀) (hP : ∀ u, P u → P' u) : b.Grown P' b₀ :=
  ⟨h.acyclic, h.extends_start, fun x t hx => hP _ (h.keys x t hx),
    fun x t hx => hP _ (h.values x t hx)⟩

theorem of_moves (hP : Term.Hereditary P) (h : b.Grown P b₀) {ps : List (Term × Term)}
    (hps : ∀ s t, (s, t) ∈ ps → P s ∧ P t) (hmoves : Unify.Moves true ⟨ps, b⟩ ⟨[], c⟩) :
    c.Grown P b₀ := by
  have hall : Unify.Problem.All P ⟨ps, b⟩ := ⟨hps, h.values⟩
  exact ⟨hmoves.acyclic h.acyclic, (hmoves.extends_bindings h.acyclic).trans h.extends_start,
    hmoves.keys hP hall h.keys, (hmoves.all hP hall).2⟩

variable {u : Unifier}

theorem of_unify (hP : Term.Hereditary P) (h : b.Grown P b₀)
    (hu : u.occursCheck = true) {s t : Term} (hs : P s) (ht : P t)
    (hunify : u.unify s t b = .ok (some c)) : c.Grown P b₀ := by
  refine h.of_moves hP (fun s' t' hmem => ?_) (Unifier.moves_of_unify hu h.acyclic hunify)
  obtain ⟨rfl, rfl⟩ : s' = s ∧ t' = t := by simpa using hmem
  exact ⟨hs, ht⟩

theorem of_unifyArgs (hP : Term.Hereditary P) (h : b.Grown P b₀) (hu : u.occursCheck = true)
    {ss ts : List Term} (hss : ∀ s ∈ ss, P s) (hts : ∀ t ∈ ts, P t)
    (hunify : u.unifyArgs ss ts b = .ok (some c)) : c.Grown P b₀ := by
  refine h.of_moves hP (fun s t hmem => ?_) (Unifier.moves_of_unifyArgs hu h.acyclic hunify)
  obtain ⟨hs, ht⟩ := List.of_mem_zip hmem
  exact ⟨hss s hs, hts t ht⟩

/-- A built-in goal adds terms of the state and values of expressions only. -/
theorem of_solve {Q : Term → Prop} {k : Nat} (hQ : Term.Inherited Q)
    (h : b.Grown (Term.InState Q k) b₀) (hu : u.occursCheck = true) {g : Goal}
    (hg : g.All (Term.InState Q k)) (hsolve : Builtin.solve u g b = .ok (some c)) :
    c.Grown (Term.InState Q k) b₀ := by
  obtain ⟨l, r, hargs, hcases⟩ := Builtin.solve_eq_some hsolve
  have hP := hQ.hereditary.inState k
  have hl := h.values.resolve (hg l (by simp [hargs]))
  have hr := h.values.resolve (hg r (by simp [hargs]))
  rcases hcases with ⟨_, hunify⟩ | ⟨_, _, _, _, _, _, _, rfl⟩ | ⟨_, n, hn, hunify⟩
  · exact h.of_unify hP hu hl hr hunify
  · exact h
  · exact h.of_unify hP hu hl (hQ.value_inState h.acyclic h.values hr hn) hunify

end Bindings.Grown

/-! ## States -/

namespace Search

/-- A state over terms with a property, before the copies with a number are made. -/
structure State.Apart (Q : Term → Prop) (b₀ : Bindings) (k : Nat) (s : State) : Prop where
  bindings : s.bindings.Grown (Term.InState Q k) b₀
  goals : ∀ g ∈ s.goals, g.All (Term.InState Q k)

variable {Q : Term → Prop} {b₀ : Bindings} {t : Task} {strategy : Strategy} {s s' : State}
  {sel : Selection} {p p' : Progress}

theorem State.Apart.mono {j k : Nat} (h : s.Apart Q b₀ j) (hjk : j ≤ k) : s.Apart Q b₀ k :=
  ⟨h.bindings.mono fun _ hu => hu.mono hjk, fun g hg a ha => (h.goals g hg a ha).mono hjk⟩

theorem State.Apart.imp {Q' : Term → Prop} {k : Nat} (h : s.Apart Q b₀ k) (hQ : ∀ u, Q u → Q' u) :
    s.Apart Q' b₀ k :=
  ⟨h.bindings.mono fun u hu => hu.imp (hQ u), fun g hg a ha => (h.goals g hg a ha).imp (hQ a)⟩

/-- Propagation adds terms of the state and of ground facts only. -/
theorem State.Apart.selection (hQ : Term.Hereditary Q)
    (hu : t.options.unifier.occursCheck = true) (hkb : t.kb.All (Term.InProgram Q)) {k : Nat}
    (h : s.Apart Q b₀ k) (hsel : Selects t strategy s sel) :
    sel.bindings.Grown (Term.InState Q k) b₀ := by
  refine hsel.keeps (motive := fun c => c.Grown (Term.InState Q k) b₀) h.bindings ?_
  intro g hg f honly _ b c hb hunify
  have hf : f ∈ t.kb.factsFor g.predicate := by simp [honly.facts]
  have hargs := hkb.1 f (KnowledgeBase.mem_facts_of_mem_factsFor hf)
  exact hb.of_unifyArgs (hQ.inState k) hu (fun a ha => (hargs a ha).inState k)
    (h.goals g hg) hunify

theorem State.Apart.follows (hQ : Term.Inherited Q)
    (hu : t.options.unifier.occursCheck = true) (hkb : t.kb.All (Term.InProgram Q))
    (h : s.Apart Q b₀ (p.fresh t.options.mode s.depth)) (hfollows : Follows t strategy s p s' p') :
    s'.Apart Q b₀ (p'.fresh t.options.mode s'.depth) := by
  cases hfollows with
  | @negated sel _ hsel _ hp =>
      have hle : p.fresh t.options.mode s.depth ≤ p'.fresh t.options.mode (s.depth + 1) :=
        fresh_mono (Nat.le_succ _) hp
      have hnext : State.Apart Q b₀ _ ⟨sel.rest, sel.bindings, s.depth + 1⟩ :=
        ⟨h.selection hQ.hereditary hu hkb hsel, fun g hg => h.goals g (hsel.mem_of_mem_rest hg)⟩
      exact hnext.mono hle
  | @builtin sel b _ hsel _ _ hsolve hp =>
      have hle : p.fresh t.options.mode s.depth ≤ p'.fresh t.options.mode (s.depth + 1) :=
        fresh_mono (Nat.le_succ _) hp
      have hb :=
        (h.selection hQ.hereditary hu hkb hsel).of_solve hQ hu (h.goals _ hsel.goal_mem) hsolve
      have hnext : State.Apart Q b₀ _ ⟨sel.rest, b, s.depth + 1⟩ :=
        ⟨hb, fun g hg => h.goals g (hsel.mem_of_mem_rest hg)⟩
      exact hnext.mono hle
  | @clause sel attempt _ _ hsel _ _ hmem hattempt =>
      -- The copy has the next number, so everything is older than the number after it.
      have hnext : ∀ {head : List Term} (body : List Goal) {b : Bindings} {k : Nat},
          p.fresh t.options.mode s.depth ≤ k → (∀ a ∈ head, a.InState Q k) →
          (∀ g ∈ body, g.All (Term.InState Q k)) →
          t.options.unifier.unifyArgs head sel.goal.args sel.bindings = .ok (some b) →
          State.Apart Q b₀ k ⟨body ++ sel.rest, b, s.depth + 1⟩ := by
        intro head body b k hle hhead hbody hunify
        have hk := h.mono hle
        have hsel' := hk.selection hQ.hereditary hu hkb hsel
        refine ⟨hsel'.of_unifyArgs (hQ.hereditary.inState k) hu hhead
          (hk.goals _ hsel.goal_mem) hunify, fun g hg => ?_⟩
        rcases List.mem_append.mp hg with hg | hg
        · exact hbody g hg
        · exact hk.goals g (hsel.mem_of_mem_rest hg)
      rcases List.mem_append.mp hmem with hfact | hrule
      · obtain ⟨f, hf, rfl⟩ := List.mem_map.mp hfact
        have hargs :=
          inState_copyFact hQ.toCopied (hkb.1 f (KnowledgeBase.mem_facts_of_mem_factsFor hf))
          t.options.mode s.depth p
        rcases tryFact_ok hattempt with ⟨_, hnone⟩ | ⟨o, hunify, hs', hp⟩
        · simp at hnone
        · obtain ⟨b, rfl, rfl⟩ := Option.map_eq_some_iff.mp hs'.symm
          have hle : (copyFact t.options.mode s.depth f p).2.fresh t.options.mode (s.depth + 1) ≤
              p'.fresh t.options.mode (s.depth + 1) := fresh_mono (Nat.le_refl _) hp.ge
          have hold : p.fresh t.options.mode s.depth ≤
              (copyFact t.options.mode s.depth f p).2.fresh t.options.mode (s.depth + 1) := by
            refine fresh_mono (Nat.le_succ _) ?_
            have := applications_le_tryFact t.options sel s.depth f p
            rwa [hattempt, hp] at this
          exact (hnext [] hold hargs (by simp) hunify).mono hle
      · obtain ⟨r, hr, rfl⟩ := List.mem_map.mp hrule
        have hcopy :=
          inState_copyRule hQ.toCopied (hkb.2 r (KnowledgeBase.mem_rules_of_mem_rulesFor hr))
          t.options.mode s.depth p
        rcases tryRule_ok hattempt with ⟨_, hnone⟩ | ⟨o, hunify, hs', hp⟩
        · simp at hnone
        · obtain ⟨b, rfl, rfl⟩ := Option.map_eq_some_iff.mp hs'.symm
          have hle : (copyRule t.options.mode s.depth r p).2.fresh t.options.mode (s.depth + 1) ≤
              p'.fresh t.options.mode (s.depth + 1) := fresh_mono (Nat.le_refl _) hp.ge
          have hold : p.fresh t.options.mode s.depth ≤
              (copyRule t.options.mode s.depth r p).2.fresh t.options.mode (s.depth + 1) :=
            (fresh_lt_nextSuffix t.options.mode s.depth p).le
          exact (hnext _ hold hcopy.1 hcopy.2 hunify).mono hle

/-! ## Machines -/

/-- A machine reached from the start visits the state in a search by the strategy. -/
def Visits (t : Task) (start : Machine) (strategy : Strategy) (s : State) : Prop :=
  ∃ m frames, Machine.Reaches t start m ∧ m.level.strategy = strategy ∧
    m.level.frames = .state s :: frames

/-- What is invariant about an entry of a stack: choices belong to a state that was visited. -/
def Frame.Apart (Q : Term → Prop) (b₀ : Bindings) (t : Task) (start : Machine) (p : Progress)
    (strategy : Strategy) : Frame → Prop
  | .state s => s.Apart Q b₀ (p.fresh t.options.mode s.depth)
  | .choices c => ∃ s, Visits t start strategy s ∧ s.Apart Q b₀ (p.fresh t.options.mode s.depth) ∧
      c.From t strategy s

theorem Frame.Apart.mono {start : Machine} {f : Frame}
    (h : f.Apart Q b₀ t start p strategy) (hp : p.applications ≤ p'.applications) :
    f.Apart Q b₀ t start p' strategy := by
  have hfresh : ∀ depth, p.fresh t.options.mode depth ≤ p'.fresh t.options.mode depth :=
    fun depth => fresh_mono (Nat.le_refl depth) hp
  cases f with
  | state s => exact State.Apart.mono h (hfresh _)
  | choices c =>
      obtain ⟨s, hvisits, hs, hfrom⟩ := h
      exact ⟨s, hvisits, hs.mono (hfresh _), hfrom⟩

/-- All entries of all stacks of a machine keep the invariant. -/
def Machine.Apart (Q : Term → Prop) (b₀ : Bindings) (t : Task) (m start : Machine) : Prop :=
  ∀ strategy f, m.Stacked strategy f → f.Apart Q b₀ t start m.progress strategy

section Runs

variable (hQ : Term.Inherited Q) (hu : t.options.unifier.occursCheck = true)
  (hkb : t.kb.All (Term.InProgram Q))

include hQ hu hkb

theorem Machine.Apart.step {start m m' : Machine} (h : m.Apart Q b₀ t start)
    (hreached : Machine.Reaches t start m) (hstep : m.step t = .running m') :
    m'.Apart Q b₀ t start := by
  obtain ⟨hp, hframes⟩ := Machine.accounted_step hstep
  have htop : ∀ {f : Frame} {frames : List Frame}, m.level.frames = f :: frames →
      f.Apart Q b₀ t start m.progress m.level.strategy := by
    intro f frames heq
    exact h _ f (.inl ⟨rfl, by rw [heq]; exact List.mem_cons_self⟩)
  intro strategy f hf
  rcases hframes strategy f hf with hold | harises
  · exact (h strategy f hold).mono hp
  · cases harises with
    | state heq hfollows => exact State.Apart.follows hQ hu hkb (htop heq) hfollows
    | @inner s sel _ heq hsel _ =>
        have hs : s.Apart Q b₀ (m.progress.fresh t.options.mode s.depth) := htop heq
        have hle : m.progress.fresh t.options.mode s.depth ≤
            m'.progress.fresh t.options.mode (s.depth + 1) := fresh_mono (Nat.le_succ _) hp
        refine State.Apart.mono ⟨hs.selection hQ.hereditary hu hkb hsel, fun g hg => ?_⟩ hle
        obtain rfl := List.mem_singleton.mp hg
        exact hs.goals sel.goal hsel.goal_mem
    | @choices s c frames heq hfrom =>
        have hs := Frame.Apart.mono (htop heq) hp
        exact ⟨s, ⟨m, frames, hreached, rfl, heq⟩, hs, hfrom⟩
    | @left c c' _ heq hsel hdepth hfacts hrules =>
        obtain ⟨s, hvisits, hs, hfrom⟩ := Frame.Apart.mono (htop heq) hp
        refine ⟨s, hvisits, hs, ?_⟩
        exact ⟨hsel ▸ hfrom.selects, hsel ▸ hfrom.positive, hsel ▸ hfrom.user,
          hdepth.trans hfrom.depth, hsel ▸ List.Subset.trans hfacts hfrom.facts,
          hsel ▸ List.Subset.trans hrules hfrom.rules⟩
    | attempt heq hmem hattempt =>
        obtain ⟨s, _, hs, hfrom⟩ := htop heq
        exact hs.follows hQ hu hkb (hfrom.follows hmem hattempt)

theorem Machine.Apart.reaches {start m : Machine} (h : start.Apart Q b₀ t start)
    (hm : Machine.Reaches t start m) : m.Apart Q b₀ t start := by
  induction hm with
  | refl => exact h
  | tail hreached hstep ih => exact ih.step hQ hu hkb hreached hstep

end Runs

theorem Machine.apart_start (hs : ∀ k, s.Apart Q b₀ k) :
    (Machine.start strategy s p).Apart Q b₀ t (Machine.start strategy s p) := by
  intro strategy' f hf
  rcases hf with ⟨_, hmem⟩ | ⟨e, he, _⟩
  · obtain rfl := List.mem_singleton.mp hmem
    exact hs _
  · simp [Machine.start] at he

/-! ## Names -/

end Search

/-- A name that occurs in bindings, bound or in a value. -/
def Bindings.Mentions (b : Bindings) (x : String) : Prop :=
  ∃ y u, b.get? y = some u ∧ (x = y ∨ x ∈ u.vars)

theorem Bindings.Grown.isOld {Q : Term → Prop} {k : Nat} {b b₀ : Bindings}
    (h : b.Grown (Term.InState Q k) b₀) {x : String} (hx : b.Mentions x) : IsOld k x := by
  obtain ⟨y, u, hu, rfl | hmem⟩ := hx
  · exact (h.keys _ u hu).2 _ (by simp [Term.vars])
  · exact (h.values y u hu).2 x hmem

/-- A name that occurs in the goals or in the bindings of a state. -/
def Search.State.Mentions (s : Search.State) (x : String) : Prop :=
  (∃ g ∈ s.goals, x ∈ g.vars) ∨ s.bindings.Mentions x

theorem Search.State.Apart.isOld {Q : Term → Prop} {k : Nat} {s : Search.State} {b₀ : Bindings}
    (h : s.Apart Q b₀ k) {x : String} (hx : s.Mentions x) : IsOld k x := by
  rcases hx with ⟨g, hg, hxg⟩ | hb
  · obtain ⟨a, ha, hxa⟩ := Term.mem_varsAll.mp hxg
    exact (h.goals g hg a ha).2 x hxa
  · exact h.bindings.isOld hb

namespace Evaluator

open Search

/-- The search for all proofs of the goals reaches the machine. -/
def Reached (ev : Evaluator) (goals : List Goal) (b : Bindings) (m : Machine) : Prop :=
  Machine.Reaches ⟨ev.kb, ev.options, none⟩ (.start ev.options.strategy ⟨goals, b, 0⟩ {}) m

/-- The machine that a search for all proofs is in after a number of steps. -/
def after (ev : Evaluator) (goals : List Goal) (b : Bindings) (n : Nat) : Option Machine :=
  (Machine.start ev.options.strategy ⟨goals, b, 0⟩ {}).after ⟨ev.kb, ev.options, none⟩ n

theorem reached_of_after {ev : Evaluator} {goals : List Goal} {b : Bindings} {n : Nat} {m : Machine}
    (h : ev.after goals b n = some m) : ev.Reached goals b m :=
  Machine.reaches_of_after h

theorem Reached.apart {Q : Term → Prop} (hQ : Term.Inherited Q) {ev : Evaluator}
    (hu : ev.options.unifier.occursCheck = true) (hkb : ev.kb.All (Term.InProgram Q))
    {goals : List Goal} (hgoals : ∀ g ∈ goals, g.All (Term.InProgram Q)) {b : Bindings}
    (hb : b.Acyclic) (hkeys : ∀ x u, b.get? x = some u → (Term.var x).InProgram Q ∧ u.InProgram Q)
    {m : Machine} (hm : ev.Reached goals b m) :
    m.Apart Q b ⟨ev.kb, ev.options, none⟩ (.start ev.options.strategy ⟨goals, b, 0⟩ {}) := by
  refine Machine.Apart.reaches hQ hu hkb
    (Machine.apart_start fun k => ⟨⟨hb, .refl b, ?_, ?_⟩, ?_⟩) hm
  · exact fun x u hx => (hkeys x u hx).1.inState k
  · exact fun x u hx => (hkeys x u hx).2.inState k
  · exact fun g hg a ha => (hgoals g hg a ha).inState k

/-- In every machine that a search reaches, the state on top of the stack has acyclic bindings that
extend the first ones, and its names are free of `#` or have a number below that of the next copy.
The copies of the clauses that are left for a state share no name with the state. -/
theorem standardised_apart {ev : Evaluator} (hu : ev.options.unifier.occursCheck = true)
    (hkb : ev.kb.All Term.HashFree) {goals : List Goal} (hgoals : ∀ g ∈ goals, g.All Term.HashFree)
    {b : Bindings} (hb : b.Acyclic) (hnames : ∀ x, b.Mentions x → HashFree x) {m : Machine}
    (hm : ev.Reached goals b m) :
    (∀ s frames, m.level.frames = .state s :: frames →
      s.bindings.Acyclic ∧ s.bindings.Extends b ∧ ∀ x, s.Mentions x → HashFree x ∨
        ∃ v k, HashFree v ∧ x = suffixed (toString k) v ∧
          match ev.options.mode with
          | .application => k ≤ m.progress.applications
          | .depth => k < s.depth) ∧
    ∀ c frames, m.level.frames = .choices c :: frames →
      ∃ s, (∃ m' frames', ev.Reached goals b m' ∧ m'.level.strategy = m.level.strategy ∧
          m'.level.frames = .state s :: frames') ∧
        c.From ⟨ev.kb, ev.options, none⟩ m.level.strategy s ∧
        ∀ x, ((∃ f ∈ c.facts, f.isGround = false ∧
              x ∈ (copyFact ev.options.mode s.depth f m.progress).1.vars) ∨
            ∃ r ∈ c.rules, x ∈ (copyRule ev.options.mode s.depth r m.progress).1.vars) →
          ¬ s.Mentions x ∧ ¬ c.selection.bindings.Mentions x := by
  have hkb' : ev.kb.All (Term.InProgram fun _ => True) := hkb.mono fun u h => ⟨trivial, h⟩
  have hapart :=
    hm.apart Term.inherited_true hu hkb' (fun g hg a ha => ⟨trivial, hgoals g hg a ha⟩) hb
    fun x u hx => ⟨⟨trivial, fun y hy => ?_⟩, trivial, fun y hy => hnames y ⟨x, u, hx, .inr hy⟩⟩
  · constructor
    · intro s frames htop
      have hs : s.Apart (fun _ => True) b (m.progress.fresh ev.options.mode s.depth) :=
        hapart _ (.state s) (.inl ⟨rfl, by simp [htop]⟩)
      refine ⟨hs.bindings.acyclic, hs.bindings.extends_start, fun x hx => ?_⟩
      rcases hs.isOld hx with hfree | ⟨k, v, hk, hv, rfl⟩
      · exact .inl hfree
      · refine .inr ⟨v, k, hv, rfl, ?_⟩
        cases hmode : ev.options.mode with
        | application =>
            rw [hmode] at hk
            exact Nat.le_of_lt_succ hk
        | depth =>
            rw [hmode] at hk
            exact hk
    · intro c frames htop
      obtain ⟨s, ⟨m', frames', hm', hstrategy, htop'⟩, hs, hfrom⟩ :
          Frame.Apart (fun _ => True) b _ _ m.progress m.level.strategy (.choices c) :=
        hapart _ (.choices c) (.inl ⟨rfl, by simp [htop]⟩)
      refine ⟨s, ⟨m', frames', hm', hstrategy, htop'⟩, hfrom, fun x hx => ?_⟩
      have hnew : ∃ v, x = suffixed (toString (m.progress.fresh ev.options.mode s.depth)) v := by
        rcases hx with ⟨f, hf, hground, hx⟩ | ⟨r, hr, hx⟩
        · have hmem := KnowledgeBase.mem_facts_of_mem_factsFor (hfrom.facts hf)
          exact exists_of_mem_vars_copyFact (hkb.1 f hmem) hground hx
        · have hmem := KnowledgeBase.mem_rules_of_mem_rulesFor (hfrom.rules hr)
          exact exists_of_mem_vars_copyRule (hkb.2 r hmem) hx
      obtain ⟨v, rfl⟩ := hnew
      have hsel := hs.selection Term.inherited_true.hereditary hu hkb' hfrom.selects
      exact ⟨fun hmentions => (hs.isOld hmentions).ne_suffixed v rfl,
        fun hmentions => (hsel.isOld hmentions).ne_suffixed v rfl⟩
  · obtain rfl : y = x := by simpa [Term.vars] using hy
    exact hnames y ⟨y, u, hx, .inl rfl⟩

/-- Chains of links, one of which has a variable. -/
def linking : Evaluator :=
  { kb := ((KnowledgeBase.empty.addFact ⟨"link", [.atom "a", .atom "b"]⟩).addFact
        ⟨"link", [.atom "c", .var "X"]⟩).addRule
        ⟨⟨"chain", [.var "X", .var "Z"]⟩,
          [⟨"link", [.var "X", .var "Y"], false⟩, ⟨"chain", [.var "Y", .var "Z"], false⟩]⟩
    options := { limit := .whole 5 } }

def linkingQuery : List Goal := [⟨"chain", [.atom "a", .var "Q"], true⟩]

def linkingBindings : Bindings := (∅ : Bindings).insert "Q" (.compound "f" [.var "R"])

theorem standardised_apart_linking :
    ∃ m₁ m₂ s₁ s₂ c frames₁ frames₂, linking.Reached linkingQuery linkingBindings m₁ ∧
      linking.Reached linkingQuery linkingBindings m₂ ∧ m₁.suspended.length = 1 ∧
      m₁.level.frames = .state s₁ :: frames₁ ∧ s₁.Mentions "X#1" ∧
      (∀ x, s₁.Mentions x → HashFree x ∨
        ∃ v k, HashFree v ∧ x = suffixed (toString k) v ∧ k ≤ m₁.progress.applications) ∧
      m₂.level.frames = .choices c :: frames₂ ∧ c.rules.length = 1 ∧
      c.From ⟨linking.kb, linking.options, none⟩ m₂.level.strategy s₂ ∧
      ∀ r ∈ c.rules, ∀ x ∈ (copyRule .application s₂.depth r m₂.progress).1.vars,
        ¬ s₂.Mentions x := by
  have hb : linkingBindings.Acyclic := Bindings.acyclic_empty.insert_of_occurs? (by simp) rfl
  have hnames : ∀ x, linkingBindings.Mentions x → HashFree x := by
    rintro x ⟨y, u, hu, hx⟩
    obtain ⟨rfl, rfl⟩ : "Q" = y ∧ Term.compound "f" [.var "R"] = u := by
      simpa [linkingBindings, Bindings.get?_insert] using hu
    rcases hx with rfl | hx
    · decide
    · obtain rfl : x = "R" := by simpa [Term.vars, Term.varsAll] using hx
      decide
  -- Both machines run the search for the negated goal. The third step makes the first copy of the
  -- rule; the fourth selects a goal of its body that the rule may be copied for again.
  have hfirst : ∃ m, linking.after linkingQuery linkingBindings 3 = some m ∧
      m.suspended.length = 1 ∧ ∃ s frames, m.level.frames = .state s :: frames ∧
        ∃ g ∈ s.goals, "X#1" ∈ g.vars := ⟨_, rfl, rfl, _, _, rfl, _, .head _, .head _⟩
  have hsecond : ∃ m, linking.after linkingQuery linkingBindings 4 = some m ∧
      ∃ c frames, m.level.frames = .choices c :: frames ∧ c.rules.length = 1 :=
    ⟨_, rfl, _, _, rfl, rfl⟩
  obtain ⟨m₁, hafter₁, hwaiting, s₁, frames₁, htop₁, hgoal⟩ := hfirst
  obtain ⟨m₂, hafter₂, c, frames₂, htop₂, hrules⟩ := hsecond
  have h₁ : linking.Reached linkingQuery linkingBindings m₁ := reached_of_after hafter₁
  have h₂ : linking.Reached linkingQuery linkingBindings m₂ := reached_of_after hafter₂
  obtain ⟨_, _, hold⟩ :=
    (standardised_apart rfl (by decide) (by decide) hb hnames h₁).1 s₁ frames₁ htop₁
  obtain ⟨s₂, _, hfrom, hnew⟩ :=
    (standardised_apart rfl (by decide) (by decide) hb hnames h₂).2 c frames₂ htop₂
  exact ⟨m₁, m₂, s₁, s₂, c, frames₁, frames₂, h₁, h₂, hwaiting, htop₁, .inl hgoal, hold,
    htop₂, hrules, hfrom, fun r hr x hx => (hnew x (.inr ⟨r, hr, hx⟩)).1⟩

end Evaluator

end Clausal
