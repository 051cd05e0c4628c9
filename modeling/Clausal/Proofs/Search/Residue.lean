import Clausal.Proofs.Search.Exact
import Clausal.Proofs.Search.Faults
import Clausal.Proofs.Search.Lockstep
import Clausal.Proofs.Unify.Residue

/-!
# Starting bindings

A search that starts with bindings and a search for the instances of its goals go in lock step. The
state of the second search has the instances of the goals of the first one, and what is left of its
bindings. Whatever looks at an argument looks at what it resolves to or at its instance, so both
searches select the same goals, try the same clauses and bind the same variables. The copies of
clauses are not touched by the starting bindings, since their names are new.
-/

namespace Clausal

open Bindings

variable {b c d : Bindings}

theorem Term.apply_image_of_unbound {t : Term} (h : ∀ x ∈ t.vars, b.get? x = none) :
    t.apply b.image = t := by
  rw [Term.apply_congr fun x hx => image_of_unbound (h x hx), Term.apply_var_eq]

theorem Term.map_apply_image_of_unbound {ts : List Term}
    (h : ∀ x ∈ Term.varsAll ts, b.get? x = none) :
    ts.map (Term.apply b.image) = ts := by
  have hself : ∀ t ∈ ts, t.apply b.image = t := fun t ht =>
    apply_image_of_unbound fun x hx => h x (mem_varsAll.mpr ⟨t, ht, hx⟩)
  rw [List.map_congr_left hself, List.map_id']

theorem Goal.apply_image_of_unbound {g : Goal} (h : ∀ x ∈ g.vars, b.get? x = none) :
    g.apply b.image = g := by
  rw [apply, Term.map_apply_image_of_unbound h]

/-! ## Built-in predicates -/

namespace Bindings.Residue

variable (h : b.Residue c d)

include h

theorem number?_resolve (t : Term) :
    ((c.resolve t).apply b.image).number? = (c.resolve t).number? := by
  rcases (c.resolve t).var_or_nonvar with ⟨x, hx⟩ | hne
  · rw [hx, Term.apply_var, h.image_of_resolve_var hx]
  · exact Term.number?_of_apply hne

theorem evaluate_eq_ok_iff {t : Term} {n : Number} :
    d.evaluate (t.apply b.image) = .ok n ↔ c.evaluate t = .ok n := by
  rw [h.acyclic.evaluate_eq_ok_iff, h.acyclic_residue.evaluate_eq_ok_iff, h.apply_image_apply]

theorem goal_apply_image_apply (g : Goal) : (g.apply b.image).apply d.image = g.apply c.image := by
  rw [Goal.apply_apply]
  exact Goal.apply_congr fun x _ => h.apply_image_apply (.var x)

end Bindings.Residue

namespace Builtin

theorem valueTerm?_of_error {t : Term} (hc : c.Acyclic) (h : ∀ n, c.evaluate t ≠ .ok n) :
    valueTerm? t c = .ok none ∨ valueTerm? t c = .error .unwritable := by
  rw [valueTerm?]
  rcases he : c.evaluate t with e | n
  · rcases Bindings.fault_of_evaluate he with (⟨cause, rfl⟩ | rfl) | ⟨_, hcyclic⟩
    · exact .inl rfl
    · exact .inr rfl
    · exact (hcyclic hc).elim
  · exact (h n he).elim

/-- Both sides have the same value, or both have none. -/
theorem valueTerm?_apply (h : b.Residue c d) (t : Term) :
    valueTerm? t c = .error .unwritable ∨ valueTerm? (t.apply b.image) d = .error .unwritable ∨
      ∃ v : Option Term, valueTerm? t c = .ok v ∧ valueTerm? (t.apply b.image) d = .ok v ∧
        ∀ s ∈ v, s.apply b.image = s := by
  rcases hvalue : c.evaluate t with e | n
  · have hnone : ∀ n, c.evaluate t ≠ .ok n := by simp [hvalue]
    have hnone' : ∀ n, d.evaluate (t.apply b.image) ≠ .ok n :=
      fun n hn => hnone n (h.evaluate_eq_ok_iff.mp hn)
    rcases valueTerm?_of_error h.acyclic hnone with hfail | hfail
    · rcases valueTerm?_of_error h.acyclic_residue hnone' with hfail' | hfail'
      · exact .inr (.inr ⟨none, hfail, hfail', by simp⟩)
      · exact .inr (.inl hfail')
    · exact .inl hfail
  · have hvalue' := h.evaluate_eq_ok_iff.mpr hvalue
    refine .inr (.inr ⟨some n.normalize.toTerm, ?_, ?_, by simp [apply_toTerm]⟩)
    · rw [valueTerm?, hvalue]
    · rw [valueTerm?, hvalue']

variable {u : Unifier}

theorem residueOr_solve (hu : u.occursCheck = true) (h : b.Residue c d) (g : Goal) :
    b.ResidueOr (solve u g c) (solve u (g.apply b.image) d) := by
  obtain ⟨p, args, negated⟩ := g
  match args with
  | [] | [_] | _ :: _ :: _ :: _ => exact .ok .none
  | [l, r] =>
      change b.ResidueOr (solveResolved u p (c.resolve l) (c.resolve r) c)
        (solveResolved u p (d.resolve (l.apply b.image)) (d.resolve (r.apply b.image)) d)
      rw [h.resolve_apply, h.resolve_apply, solveResolved, solveResolved]
      split
      · exact Unifier.residueOr_unify hu h _ _
      · cases Comparison.ofSymbol? p with
        | some cmp =>
            dsimp only
            rw [h.number?_resolve, h.number?_resolve]
            rcases (c.resolve l).number? with _ | m
            · exact .ok .none
            · rcases (c.resolve r).number? with _ | n
              · exact .ok .none
              · dsimp only
                split
                · exact .ok (.some h)
                · exact .ok .none
        | none =>
            dsimp only
            split
            · rcases valueTerm?_apply h (c.resolve r)
                with hfail | hfail | ⟨_ | v, hvalue, hvalue', hv⟩
              · rw [hfail]
                exact .left
              · rw [hfail]
                exact .right
              · rw [hvalue, hvalue']
                exact .ok .none
              · have hunify := Unifier.residueOr_unify hu h (c.resolve l) v
                rw [hv v rfl] at hunify
                rw [hvalue, hvalue']
                exact hunify
            · exact .ok .none

end Builtin

namespace Search

/-! ## Selection -/

section Selection

variable (h : b.Residue c d)

include h

theorem isVar_resolve_apply (t : Term) :
    (d.resolve (t.apply b.image)).isVar = (c.resolve t).isVar := by
  rw [h.resolve_apply]
  rcases (c.resolve t).var_or_nonvar with ⟨x, hx⟩ | hne
  · rw [hx, Term.apply_var, h.image_of_resolve_var hx]
  · generalize c.resolve t = s at hne
    cases s with
    | var x => exact (hne x rfl).elim
    | compound f args => rw [Term.apply_compound]; rfl
    | _ => rfl

theorem hasUnbound_apply (g : Goal) : hasUnbound (g.apply b.image) d = hasUnbound g c := by
  rw [hasUnbound, hasUnbound, Goal.apply, List.any_map]
  exact congrArg (List.any g.args) (funext (isVar_resolve_apply h))

theorem score_apply (kb : KnowledgeBase) (g : Goal) :
    score kb (g.apply b.image) d = score kb g c := by
  rw [score, score, Goal.apply, List.countP_map]
  exact congrArg (fun p => unboundWeight * g.args.countP p + _) (funext (isVar_resolve_apply h))

theorem selectIndex?_apply (kb : KnowledgeBase) (gs : List Goal) :
    selectIndex? kb (gs.map (Goal.apply b.image)) d = selectIndex? kb gs c := by
  refine selectIndex?_of_forall₂
    (List.forall₂_map_right_iff.mpr (List.forall₂_same.mpr fun g _ => ?_))
  refine ⟨?_, score_apply h kb g⟩
  rw [isReady?_eq h.acyclic, isReady?_eq h.acyclic_residue, h.goal_apply_image_apply]

theorem residueOr_propagate {u : Unifier} (hu : u.occursCheck = true) (kb : KnowledgeBase)
    (gs : List Goal) :
    b.ResidueOr (propagate kb u gs c) (propagate kb u (gs.map (Goal.apply b.image)) d) := by
  induction gs generalizing c d with
  | nil => exact .ok (.some h)
  | cons g gs ih =>
      rw [List.map_cons, propagate, propagate, hasUnbound_apply h, Goal.arity_apply,
        Goal.negated_apply, Goal.predicate_apply, Goal.args_apply]
      split
      · exact ih h
      · rcases kb.factsFor g.predicate with _ | ⟨f, _ | _⟩
        · exact ih h
        · rcases kb.rulesFor g.predicate with _ | _
          · dsimp only
            split
            · exact .ok .none
            · split
              · next hready =>
                rw [Bool.and_eq_true] at hready
                have hunify := Unifier.residueOr_unifyArgs hu h f.args g.args
                rw [Fact.map_apply_of_isGround hready.1] at hunify
                generalize u.unifyArgs f.args g.args c = x,
                  u.unifyArgs f.args (g.args.map (Term.apply b.image)) d = x' at hunify
                cases hunify with
                | left => exact .left
                | right => exact .right
                | ok ho =>
                    cases ho with
                    | none => exact .ok .none
                    | some hnext => exact ih hnext
              · exact ih h
          · exact ih h
        · exact ih h

end Selection

/-! ## Steps -/

/-- As many clauses were copied, and the counts are the same. What was reported may differ. -/
def Progress.SameCounts (p p' : Progress) : Prop :=
  p'.applications = p.applications ∧ p'.stats = p.stats

section Copies

variable (mode : RenamingMode) (depth : Nat) {p p' : Progress}

theorem copyFact_of_sameCounts (h : p.SameCounts p') (f : Fact) :
    (copyFact mode depth f p').1 = (copyFact mode depth f p).1 ∧
      (copyFact mode depth f p).2.SameCounts (copyFact mode depth f p').2 := by
  obtain ⟨hcopy, happlications⟩ := copyFact_of_applications h.1 mode depth f
  exact ⟨hcopy, happlications, by rw [stats_copyFact, stats_copyFact, h.2]⟩

theorem copyRule_of_sameCounts (h : p.SameCounts p') (r : Rule) :
    (copyRule mode depth r p').1 = (copyRule mode depth r p).1 ∧
      (copyRule mode depth r p).2.SameCounts (copyRule mode depth r p').2 := by
  obtain ⟨hcopy, happlications⟩ := copyRule_of_applications h.1 mode depth r
  exact ⟨hcopy, happlications, by rw [stats_copyRule, stats_copyRule, h.2]⟩

variable (hnames : ∀ x t, b.get? x = some t → HashFree x)

include hnames

theorem get?_suffixed (suffix v : String) : b.get? (suffixed suffix v) = none := by
  cases hv : b.get? (suffixed suffix v) with
  | none => rfl
  | some t => exact (not_hashFree_suffixed suffix v (hnames _ t hv)).elim

theorem map_apply_copyFact {f : Fact} (hf : f.All Term.HashFree) (p : Progress) :
    (copyFact mode depth f p).1.args.map (Term.apply b.image) =
      (copyFact mode depth f p).1.args := by
  cases hground : f.isGround with
  | true =>
      rw [copyFact, if_pos hground]
      exact Fact.map_apply_of_isGround hground _
  | false =>
      refine Term.map_apply_image_of_unbound fun x hx => ?_
      obtain ⟨v, rfl⟩ := exists_of_mem_vars_copyFact hf hground hx
      exact get?_suffixed hnames _ v

theorem apply_copyRule {r : Rule} (hr : r.All Term.HashFree) (p : Progress) :
    (copyRule mode depth r p).1.head.args.map (Term.apply b.image) =
        (copyRule mode depth r p).1.head.args ∧
      (copyRule mode depth r p).1.body.map (Goal.apply b.image) =
      (copyRule mode depth r p).1.body := by
  have hvars : ∀ x ∈ (copyRule mode depth r p).1.vars, b.get? x = none := by
    intro x hx
    obtain ⟨v, rfl⟩ := exists_of_mem_vars_copyRule hr hx
    exact get?_suffixed hnames _ v
  constructor
  · exact Term.map_apply_image_of_unbound fun x hx => hvars x (Rule.mem_vars.mpr (.inl hx))
  · have hself : ∀ g ∈ (copyRule mode depth r p).1.body, g.apply b.image = g := fun g hg =>
      Goal.apply_image_of_unbound fun x hx =>
        hvars x (Rule.mem_vars.mpr (.inr ⟨g, hg, hx⟩))
    rw [List.map_congr_left hself, List.map_id']

end Copies

/-- The second state has the instances of the goals and what is left of the bindings. -/
structure State.Residue (b : Bindings) (s s' : State) : Prop where
  goals : s'.goals = s.goals.map (Goal.apply b.image)
  bindings : b.Residue s.bindings s'.bindings
  depth : s'.depth = s.depth

def residues (b : Bindings) : Pairing where
  states _ _ := State.Residue b
  results := b.Residue
  counts := Progress.SameCounts
  excused e := e = .unwritable

end Search

theorem Bindings.ResidueOr.paired {x x' : Except Fault (Option Bindings)} (h : b.ResidueOr x x')
    {p p' : Search.Progress} (hp : p.SameCounts p')
    {S : Search.Progress → Search.Progress → Bindings → Bindings → Prop}
    (hS : ∀ c d, b.Residue c d → S p p' c d) :
    Search.Paired (Search.residues b) (fun p p' => Option.Rel (S p p')) (x, p) (x', p') := by
  cases h with
  | left => exact .left rfl
  | right => exact .right rfl
  | ok ho =>
      cases ho with
      | none => exact .ok hp .none
      | some h => exact .ok hp (.some (hS _ _ h))

namespace Search

theorem Selection.eq_of_residue {sel sel' : Selection} {depth : Nat}
    (h : State.Residue b (sel.state depth) (sel'.state depth)) :
    sel'.goal = sel.goal.apply b.image ∧ sel'.rest = sel.rest.map (Goal.apply b.image) ∧
      b.Residue sel.bindings sel'.bindings := by
  obtain ⟨hgoal, hrest⟩ := List.cons.inj h.goals
  exact ⟨hgoal, hrest, h.bindings⟩

theorem Progress.SameCounts.applyRule {p p' : Progress} (h : p.SameCounts p') :
    p.applyRule.SameCounts p'.applyRule :=
  ⟨h.1, by rw [Progress.applyRule, Progress.applyRule, h.2]⟩

section Attempts

variable {o : Options} {sel sel' : Selection} {depth : Nat} {p p' : Progress}
  (hu : o.unifier.occursCheck = true) (hnames : ∀ x t, b.get? x = some t → HashFree x)
  (hsel : State.Residue b (sel.state depth) (sel'.state depth)) (hp : p.SameCounts p')

include hu hnames hsel hp

theorem paired_tryFact {f : Fact} (hf : f.All Term.HashFree) :
    Paired (residues b) (fun p p' => Option.Rel ((residues b).states p p'))
      (tryFact o sel depth f p) (tryFact o sel' depth f p') := by
  obtain ⟨hgoal, hrest, hbindings⟩ := Selection.eq_of_residue hsel
  obtain ⟨hcopy, hcounts⟩ := copyFact_of_sameCounts o.mode depth hp f
  have hunify :=
    Unifier.residueOr_unifyArgs hu hbindings (copyFact o.mode depth f p).1.args sel.goal.args
  rw [map_apply_copyFact o.mode depth hnames hf] at hunify
  refine .tryFact (by rw [hgoal, Goal.arity_apply]) hp ?_
  rw [hcopy, hgoal, Goal.args_apply]
  exact hunify.paired hcounts fun c d hnext => ⟨hrest, hnext, rfl⟩

theorem paired_tryRule {r : Rule} (hr : r.All Term.HashFree) :
    Paired (residues b) (fun p p' => Option.Rel ((residues b).states p p'))
      (tryRule o sel depth r p) (tryRule o sel' depth r p') := by
  obtain ⟨hgoal, hrest, hbindings⟩ := Selection.eq_of_residue hsel
  obtain ⟨hcopy, hcounts⟩ := copyRule_of_sameCounts o.mode depth hp r
  obtain ⟨hhead, hbody⟩ := apply_copyRule o.mode depth hnames hr p
  have hunify := Unifier.residueOr_unifyArgs hu hbindings (copyRule o.mode depth r p).1.head.args
    sel.goal.args
  rw [hhead] at hunify
  refine .tryRule (by rw [hgoal, Goal.arity_apply]) hp (fun _ _ => Progress.SameCounts.applyRule) ?_
  rw [hcopy, hgoal, Goal.args_apply]
  refine hunify.paired hcounts fun c d hnext => ⟨?_, hnext, rfl⟩
  dsimp only
  rw [List.map_append, hbody, hrest]

end Attempts

theorem lockstep_residues {t : Task} (hu : t.options.unifier.occursCheck = true)
    (hkb : t.kb.All Term.HashFree) (hnames : ∀ x u, b.get? x = some u → HashFree x) :
    Lockstep t t (residues b) where
  visit d h := ⟨h.1, by rw [Progress.visit, Progress.visit, h.2]⟩
  infer h := ⟨h.1, by rw [Progress.infer, Progress.infer, h.2]⟩
  prune h := ⟨h.1, by rw [Progress.prune, Progress.prune, h.2]⟩
  depth hs := hs.depth
  mono hs _ _ := hs
  tooDeep := by
    intro p p' s s' hs hp
    rw [tooDeep, tooDeep, hs.depth]
    cases t.options.limit.floor with
    | none => exact .failed hp
    | some limit =>
        dsimp only
        by_cases htext : (s.goals.take 3).all Goal.hasText = true
        · by_cases htext' : (s'.goals.take 3).all Goal.hasText = true
          · rw [if_pos htext, if_pos htext']
            exact .failed hp
          · rw [if_neg htext']
            exact .right rfl
        · rw [if_neg htext]
          exact .left rfl
  done := by
    intro p p' s s' hs hgoals
    exact ⟨by rw [hs.goals, hgoals]; rfl, hs.bindings⟩
  select := by
    intro p p' s s' g gs strategy hs hp hgoals
    refine ⟨g.apply b.image, gs.map (Goal.apply b.image), by rw [hs.goals, hgoals]; rfl, ?_⟩
    cases strategy with
    | baseline => exact .ok hp (.some ⟨rfl, hs.bindings, rfl⟩)
    | constrained =>
        have hprop := residueOr_propagate hs.bindings hu t.kb (g :: gs)
        rw [List.map_cons] at hprop
        rw [select, select]
        generalize propagate t.kb t.options.unifier (g :: gs) s.bindings = x,
          propagate t.kb t.options.unifier (g.apply b.image ::
          gs.map (Goal.apply b.image)) s'.bindings = x' at hprop
        cases hprop with
        | left => exact .left rfl
        | right => exact .right rfl
        | ok ho =>
            cases ho with
            | none => exact .ok hp .none
            | @some c d hnext =>
                have hindex := selectIndex?_apply hnext t.kb (g :: gs)
                rw [List.map_cons] at hindex
                dsimp only
                rw [hindex]
                rcases selectIndex? t.kb (g :: gs) c with _ | i
                · exact .error hp
                · dsimp only
                  rw [pick_map]
                  exact .ok hp (.some ⟨rfl, hnext, rfl⟩)
  kind := by
    intro p p' sel sel' d hs
    rw [(Selection.eq_of_residue hs).1]
    exact ⟨rfl, rfl⟩
  trace := by
    intro p p' sel sel' d hs hp
    obtain ⟨hgoal, _, hbindings⟩ := Selection.eq_of_residue hs
    rw [traceGoal, traceGoal, hgoal, Goal.substitute?_eq hbindings.acyclic,
      Goal.substitute?_eq hbindings.acyclic_residue]
    split
    · exact .ok hp hp
    · exact .ok hp hp
  inner := by
    intro p p' sel sel' d hs _
    obtain ⟨hgoal, _, hbindings⟩ := Selection.eq_of_residue hs
    exact ⟨rfl, by rw [hgoal]; rfl, hbindings, rfl⟩
  rest := by
    intro p p' sel sel' d hs _
    obtain ⟨_, hrest, hbindings⟩ := Selection.eq_of_residue hs
    exact ⟨hrest, hbindings, rfl⟩
  solve := by
    intro p p' sel sel' d hs hp _ _
    obtain ⟨hgoal, hrest, hbindings⟩ := Selection.eq_of_residue hs
    rw [hgoal]
    exact (Builtin.residueOr_solve hu hbindings sel.goal).paired hp fun c d hnext =>
      ⟨hrest, hnext, rfl⟩
  attempts := by
    intro p p' sel sel' d _ hs _ _
    have hgoal := (Selection.eq_of_residue hs).1
    rw [attempts, attempts, hgoal, Goal.predicate_apply]
    refine forall₂_attempts (fun f hf q q' hs hq => ?_) fun r hr q q' hs hq => ?_
    · exact paired_tryFact hu hnames hs hq (hkb.1 f (KnowledgeBase.mem_facts_of_mem_factsFor hf))
    · exact paired_tryRule hu hnames hs hq (hkb.2 r (KnowledgeBase.mem_rules_of_mem_rulesFor hr))

end Search

/-- Both bindings give the variables of the goals the same values. -/
def Bindings.SameOn (goals : List Goal) (r r' : Bindings) : Prop :=
  ∀ g ∈ goals, ∀ x ∈ g.vars, ∃ u, r.substitute? (.var x) = some u ∧ r'.substitute? (.var x) = some u

theorem Bindings.Residue.sameOn (h : b.Residue c d) (goals : List Goal) :
    SameOn (goals.map (Goal.apply b.image)) c d := by
  intro g hg x hx
  obtain ⟨g', _, rfl⟩ := List.mem_map.mp hg
  obtain ⟨t, ht, hxt⟩ := Term.mem_varsAll.mp hx
  obtain ⟨a, _, rfl⟩ := List.mem_map.mp ht
  -- The variables of an instance are not bound.
  obtain ⟨y, _, hy⟩ := Term.mem_vars_apply.mp hxt
  have hunbound := (h.acyclic_start.mem_vars_image.mp hy).1
  have himage := h.apply_image_apply (.var x)
  rw [Term.apply_var, image_of_unbound hunbound] at himage
  exact ⟨_, h.acyclic.substitute?_eq (.var x), by rw [h.acyclic_residue.substitute?_eq, himage]⟩

namespace Evaluator

open Search

/-- Starting bindings act by substitution only. Where no text is missing, the search with the
bindings and the search for the substituted goals both go too deep, at the same depth, or have as
many results, which agree one by one on the variables of the substituted goals; without a limit they
may both have no end. The counts are the same. -/
theorem solve_substituted {ev : Evaluator} (hu : ev.options.unifier.occursCheck = true)
    (hkb : ev.kb.All Term.HashFree) {b : Bindings} (hb : b.Acyclic)
    (hnames : ∀ x t, b.get? x = some t → HashFree x) (goals : List Goal) :
    ∃ goals', goals.mapM (fun g => g.substitute? b) = some goals' ∧
      ((ev.solve goals b).1 ≠ .error .unwritable → (ev.solve goals' ∅).1 ≠ .error .unwritable →
        ((∃ depth, (ev.solve goals b).1 = .error (.depthExceeded depth ev.options.limit) ∧
            (ev.solve goals' ∅).1 = .error (.depthExceeded depth ev.options.limit)) ∨
          (ev.options.limit.floor = none ∧ (ev.solve goals b).1 = .error .divergent ∧
            (ev.solve goals' ∅).1 = .error .divergent) ∨
          ∃ rs rs', (ev.solve goals b).1 = .ok rs ∧ (ev.solve goals' ∅).1 = .ok rs' ∧
            List.Forall₂ (SameOn goals') rs rs') ∧
        (ev.solve goals' ∅).2.progress.stats = (ev.solve goals b).2.progress.stats) := by
  refine ⟨_, Goal.mapM_substitute?_eq hb goals, ?_⟩
  let t : Task := ⟨ev.kb, ev.options, none⟩
  have hstates : (residues b).states {} {} ⟨goals, b, 0⟩ ⟨goals.map (Goal.apply b.image), ∅, 0⟩ :=
    ⟨rfl, residue_start hb, rfl⟩
  have hsearch := (lockstep_residues (t := t) hu hkb hnames).search rfl rfl (fun _ _ _ => trivial)
    ev.options.strategy hstates ⟨rfl, rfl⟩
  rw [stats_solve, stats_solve, solve_of_search _ _ b rfl, solve_of_search _ _ ∅ rfl]
  intro hwritten hwritten'
  obtain ⟨hends, hcounts⟩ :=
    hsearch.of_not_excused (fun e he => he ▸ hwritten) fun e he => he ▸ hwritten'
  refine ⟨?_, hcounts.2⟩
  rcases hends with ⟨e, he, he'⟩ | ⟨rs, rs', hrs, hrs', hresults⟩
  · rcases fault_of_search he with ⟨k, _, rfl⟩ | ⟨hnone, rfl⟩ | rfl | ⟨_, hcyclic⟩
    · exact .inl ⟨_, he, he'⟩
    · exact .inr (.inl ⟨hnone, he, he'⟩)
    · exact (hwritten he).elim
    · exact (hcyclic ⟨hu, hb⟩).elim
  · exact .inr (.inr ⟨rs, rs', hrs, hrs', hresults.imp fun r r' h => h.sameOn goals⟩)

/-- What one can pay for, unless it is sold. -/
def shop : Evaluator :=
  { kb := ((((KnowledgeBase.empty.addFact ⟨"price", [.atom "pen", .int 3]⟩).addFact
        ⟨"price", [.atom "book", .int 4]⟩).addFact ⟨"price", [.atom "lamp", .int 9]⟩).addFact
        ⟨"sold", [.atom "book"]⟩).addRule
      ⟨⟨"payable", [.var "X", .var "M"]⟩, [⟨"price", [.var "X", .var "P"], false⟩,
        ⟨"<=", [.var "P", .var "M"], false⟩, ⟨"sold", [.var "X"], true⟩]⟩
    options := { limit := .whole 20, strategy := .constrained } }

def shopQuery : List Goal :=
  [⟨"payable", [.var "X", .var "N"], false⟩,
    ⟨"is", [.var "R", .compound "-" [.var "N", .int 1]], false⟩]

/-- The second variable is bound through the first one. -/
def purse : Bindings := ((∅ : Bindings).insert "M" (.int 5)).insert "N" (.var "M")

theorem solve_substituted_shop :
    ∃ goals' rs rs', shopQuery.mapM (fun g => g.substitute? purse) = some goals' ∧
      (shop.solve shopQuery purse).1 = .ok rs ∧ (shop.solve goals' ∅).1 = .ok rs' ∧ rs.length = 1 ∧
      List.Forall₂ (SameOn goals') rs rs' := by
  have hpurse : purse.Acyclic :=
    (acyclic_empty.insert_of_occurs? (get?_empty "M") rfl).insert_of_occurs? rfl rfl
  have hfree : ∀ entry ∈ purse.entries, HashFree entry.1 := by decide
  have hnames : ∀ x u, purse.get? x = some u → HashFree x := fun x u hx =>
    hfree (x, u) (mem_entries_of_get? hx)
  obtain ⟨rs, hrs, hlength⟩ : ∃ rs, (shop.solve shopQuery purse).1 = .ok rs ∧ rs.length = 1 :=
    exists_ok_of_length (by rw [solve_eq_walk rfl]; decide +kernel)
  obtain ⟨goals', hgoals, hagree⟩ :=
    @solve_substituted shop rfl (by decide) purse hpurse hnames shopQuery
  obtain ⟨rs', hrs', _⟩ : ∃ rs', (shop.solve goals' ∅).1 = .ok rs' ∧ rs'.length = 1 := by
    rw [Goal.mapM_substitute?_eq hpurse] at hgoals
    obtain rfl := Option.some.inj hgoals
    exact exists_ok_of_length (by rw [solve_eq_walk rfl]; decide +kernel)
  have hends := (hagree (by simp [hrs]) (by simp [hrs'])).1
  rw [hrs, hrs'] at hends
  obtain ⟨_, herror, _⟩ | ⟨_, herror, _⟩ | ⟨_, _, heq, heq', hsame⟩ := hends
  · simp at herror
  · simp at herror
  · obtain rfl := Except.ok.inj heq
    obtain rfl := Except.ok.inj heq'
    exact ⟨goals', rs, rs', hgoals, hrs, hrs', hlength, hsame⟩

end Evaluator

end Clausal
