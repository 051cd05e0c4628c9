import Clausal.Proofs.Search.Apart
import Clausal.Proofs.Search.Lockstep
import Clausal.Proofs.Search.ProofTree
import Clausal.Proofs.Search.Recursion
import Clausal.Proofs.Unify.Alike

/-!
# Searches under bindings that are alike

Two searches for the same goals go in lock step if their bindings are alike on the names that the
goals reach and on those that copies of clauses can still get. The copies bring in no other names,
so every question to the bindings has one answer for both searches. They end with the same fault, or
with as many results.
-/

namespace Clausal

variable {R : String → Prop} {c c' : Bindings}

theorem Fact.within_of_isGround {f : Fact} (h : f.isGround = true) : f.All (Term.Within R) := by
  rw [isGround, Term.isGroundAll_eq, List.all_eq_true] at h
  exact fun a ha => Term.within_of_isGround (h a ha)

theorem Goal.apply_image_of_alike (h : c.Alike R c') {g : Goal} (hg : g.All (Term.Within R)) :
    g.apply c'.image = g.apply c.image := by
  refine Goal.apply_congr fun x hx => ?_
  obtain ⟨a, ha, hxa⟩ := Term.mem_varsAll.mp hx
  exact h.image_eq (hg a ha x hxa)

namespace Builtin

theorem valueTerm?_of_alike (h : c.Alike R c') {t : Term} (ht : t.Within R) :
    valueTerm? t c' = valueTerm? t c := by
  rw [valueTerm?, valueTerm?, h.evaluate_eq ht]

theorem within_toTerm (n : Number) : n.toTerm.Within R := by
  cases n <;> simp [Number.toTerm, Term.Within, Term.vars]

theorem alikeOr_solve {u : Unifier} (hu : u.occursCheck = true) (h : c.Alike R c') {g : Goal}
    (hg : g.All (Term.Within R)) : Bindings.AlikeOr R (solve u g c) (solve u g c') := by
  obtain ⟨p, args, negated⟩ := g
  match args with
  | [] | [_] | _ :: _ :: _ :: _ => exact .ok .none
  | [l, r] =>
      obtain ⟨hl, hleft⟩ := h.resolve_eq (hg l (by simp))
      obtain ⟨hr, hright⟩ := h.resolve_eq (hg r (by simp))
      change Bindings.AlikeOr R (solveResolved u p (c.resolve l) (c.resolve r) c)
        (solveResolved u p (c'.resolve l) (c'.resolve r) c')
      rw [hl, hr, solveResolved, solveResolved]
      split
      · exact Unifier.alikeOr_unify hu h hleft hright
      · cases Comparison.ofSymbol? p with
        | some cmp =>
            dsimp only
            rcases (c.resolve l).number? with _ | m
            · exact .ok .none
            · rcases (c.resolve r).number? with _ | n
              · exact .ok .none
              · dsimp only
                split
                · exact .ok (.some h)
                · exact .ok .none
        | none =>
            dsimp only
            split
            · rw [valueTerm?_of_alike h hright, valueTerm?]
              split
              · exact .error _
              · exact .ok .none
              · next hvalue =>
                obtain ⟨n, rfl⟩ : ∃ n : Number, n.toTerm = _ := by
                  split at hvalue <;> simp at hvalue
                  exact ⟨_, hvalue⟩
                exact Unifier.alikeOr_unify hu h hleft (within_toTerm n)
            · exact .ok .none

end Builtin

namespace Search

/-! ## Selection -/

section Selection

variable (h : c.Alike R c')

include h

theorem hasUnbound_of_alike {g : Goal} (hg : g.All (Term.Within R)) :
    hasUnbound g c' = hasUnbound g c := by
  rw [hasUnbound, hasUnbound, Bool.eq_iff_iff, List.any_eq_true, List.any_eq_true]
  refine exists_congr fun a => and_congr_right fun ha => ?_
  rw [(h.resolve_eq (hg a ha)).1]

theorem score_of_alike (kb : KnowledgeBase) {g : Goal} (hg : g.All (Term.Within R)) :
    score kb g c' = score kb g c := by
  have hcount : g.args.countP (fun t => (c'.resolve t).isVar) =
      g.args.countP fun t => (c.resolve t).isVar :=
    List.countP_congr fun a ha => by rw [(h.resolve_eq (hg a ha)).1]
  rw [score, score, hcount]

theorem selectIndex?_of_alike (kb : KnowledgeBase) {gs : List Goal}
    (hgs : ∀ g ∈ gs, g.All (Term.Within R)) : selectIndex? kb gs c' = selectIndex? kb gs c := by
  refine selectIndex?_of_forall₂
    (List.forall₂_same.mpr fun g hg => ⟨?_, score_of_alike h kb (hgs g hg)⟩)
  rw [isReady?_eq h.acyclic, isReady?_eq h.acyclic', Goal.apply_image_of_alike h (hgs g hg)]

theorem alikeOr_propagate {u : Unifier} (hu : u.occursCheck = true) (kb : KnowledgeBase)
    {gs : List Goal} (hgs : ∀ g ∈ gs, g.All (Term.Within R)) :
    Bindings.AlikeOr R (propagate kb u gs c) (propagate kb u gs c') := by
  induction gs generalizing c c' with
  | nil => exact .ok (.some h)
  | cons g gs ih =>
      have hrest : ∀ {d d' : Bindings}, d.Alike R d' →
          Bindings.AlikeOr R (propagate kb u gs d) (propagate kb u gs d') :=
        fun hd => ih hd fun g' hg' => hgs g' (List.mem_cons_of_mem _ hg')
      have hg := hgs g List.mem_cons_self
      rw [propagate, propagate, hasUnbound_of_alike h hg]
      split
      · exact hrest h
      · split
        · next f _ _ =>
          split
          · exact .ok .none
          · split
            · next hready =>
              rw [Bool.and_eq_true] at hready
              have hunify := Unifier.alikeOr_unifyArgs hu h (Fact.within_of_isGround hready.1) hg
              generalize u.unifyArgs f.args g.args c = x,
                u.unifyArgs f.args g.args c' = x' at hunify
              cases hunify with
              | error e => exact .error e
              | ok ho =>
                  cases ho with
                  | none => exact .ok .none
                  | some hnext => exact hrest hnext
            · exact hrest h
        · exact hrest h

end Selection

/-! ## Steps -/

/-- The numbers that copies of clauses can get in a search from a depth, with the
progress made before. -/
def Options.Issues (o : Options) (depth : Nat) (p : Progress) (k : Nat) : Prop :=
  match o.mode with
  | .application => p.applications < k
  | .depth => depth ≤ k ∧ o.limit.isExceededBy k = false

theorem Options.issues_fresh (o : Options) {depth d : Nat} {p q : Progress} (hdepth : depth ≤ d)
    (hlimit : o.limit.isExceededBy d = false) (hp : p.applications ≤ q.applications) :
    o.Issues depth p (q.fresh o.mode d) := by
  rw [Issues]
  cases o.mode with
  | application => exact Nat.lt_succ_of_le hp
  | depth => exact ⟨hdepth, hlimit⟩

/-- States with the same goals, under bindings that are alike on the names of the goals. -/
structure State.Alike (R : String → Prop) (s s' : State) : Prop where
  goals : s'.goals = s.goals
  within : ∀ g ∈ s.goals, g.All (Term.Within R)
  bindings : s.bindings.Alike R s'.bindings
  depth : s'.depth = s.depth

/-- Two searches from a depth that have copied as many clauses. -/
def alikes (R : String → Prop) (depth : Nat) (p₀ : Progress) : Pairing where
  states p _ s s' := p₀.applications ≤ p.applications ∧ depth ≤ s.depth ∧ s.Alike R s'
  results _ _ := True
  counts p p' := p'.applications = p.applications
  excused _ := False

end Search

theorem Bindings.AlikeOr.paired {x x' : Except Fault (Option Bindings)} (h : AlikeOr R x x')
    {depth : Nat} {p₀ p p' : Search.Progress} (hp : p'.applications = p.applications)
    {S : Search.Progress → Search.Progress → Bindings → Bindings → Prop}
    (hS : ∀ c c', c.Alike R c' → S p p' c c') :
    Search.Paired (Search.alikes R depth p₀) (fun p p' => Option.Rel (S p p')) (x, p) (x', p') := by
  cases h with
  | error e => exact .error hp
  | ok ho =>
      cases ho with
      | none => exact .ok hp .none
      | some h => exact .ok hp (.some (hS _ _ h))

namespace Search

theorem Selection.parts_of_alike {sel sel' : Selection} {depth : Nat}
    (h : (sel.state depth).Alike R (sel'.state depth)) :
    sel' = ⟨sel.goal, sel.rest, sel'.bindings⟩ ∧ sel.goal.All (Term.Within R) ∧
      (∀ g ∈ sel.rest, g.All (Term.Within R)) ∧ sel.bindings.Alike R sel'.bindings := by
  obtain ⟨hgoal, hrest⟩ := List.cons.inj h.goals
  refine ⟨by rw [← hgoal, ← hrest], h.within sel.goal List.mem_cons_self,
    fun g hg => ?_, h.bindings⟩
  exact h.within g (List.mem_cons_of_mem _ hg)

section Copies

variable {mode : RenamingMode} {depth : Nat} {p : Progress}
  (hR : ∀ v, R (suffixed (toString (p.fresh mode depth)) v))

include hR

theorem within_copyFact {f : Fact} (hf : f.All Term.HashFree) :
    (copyFact mode depth f p).1.All (Term.Within R) := by
  cases hground : f.isGround with
  | true =>
      rw [copyFact, if_pos hground]
      exact Fact.within_of_isGround hground
  | false =>
      intro a ha x hx
      obtain ⟨v, rfl⟩ := exists_of_mem_vars_copyFact hf hground (Term.mem_varsAll.mpr ⟨a, ha, hx⟩)
      exact hR v

theorem within_copyRule {r : Rule} (hr : r.All Term.HashFree) :
    (copyRule mode depth r p).1.All (Term.Within R) := by
  have hvars : ∀ x ∈ (copyRule mode depth r p).1.vars, R x := by
    intro x hx
    obtain ⟨v, rfl⟩ := exists_of_mem_vars_copyRule hr hx
    exact hR v
  constructor
  · intro a ha x hx
    exact hvars x (Rule.mem_vars.mpr (.inl (Term.mem_varsAll.mpr ⟨a, ha, hx⟩)))
  · intro g hg a ha x hx
    exact hvars x (Rule.mem_vars.mpr (.inr ⟨g, hg, Term.mem_varsAll.mpr ⟨a, ha, hx⟩⟩))

end Copies

section Attempts

variable {o : Options} {sel sel' : Selection} {depth d : Nat} {p₀ p p' : Progress}
  (hu : o.unifier.occursCheck = true)
  (hR : ∀ k, o.Issues depth p₀ k → ∀ v, R (suffixed (toString k) v))
  (hd : o.limit.isExceededBy d = false)
  (hsel : (alikes R depth p₀).states p p' (sel.state d) (sel'.state d))
  (hp : p'.applications = p.applications)

include hu hR hd hsel hp

theorem paired_tryFact_alikes {f : Fact} (hf : f.All Term.HashFree) :
    Paired (alikes R depth p₀) (fun p p' => Option.Rel ((alikes R depth p₀).states p p'))
      (tryFact o sel d f p) (tryFact o sel' d f p') := by
  obtain ⟨happ, (hdepth : depth ≤ d), hstates⟩ := hsel
  obtain ⟨hsel, hgoal, hrest, hbindings⟩ := Selection.parts_of_alike hstates
  obtain ⟨hcopy, hcounts⟩ := copyFact_of_applications hp o.mode d f
  have hunify := Unifier.alikeOr_unifyArgs hu hbindings
    (within_copyFact (hR _ (o.issues_fresh hdepth hd happ)) hf) hgoal
  refine .tryFact (by rw [hsel]) hp ?_
  rw [hcopy, hsel]
  refine hunify.paired hcounts fun c c' hnext =>
    ⟨?_, Nat.le_succ_of_le hdepth, rfl, hrest, hnext, rfl⟩
  exact happ.trans (applications_le_copyFact o.mode d f p)

theorem paired_tryRule_alikes {r : Rule} (hr : r.All Term.HashFree) :
    Paired (alikes R depth p₀) (fun p p' => Option.Rel ((alikes R depth p₀).states p p'))
      (tryRule o sel d r p) (tryRule o sel' d r p') := by
  obtain ⟨happ, (hdepth : depth ≤ d), hstates⟩ := hsel
  obtain ⟨hsel, hgoal, hrest, hbindings⟩ := Selection.parts_of_alike hstates
  obtain ⟨hcopy, hcounts⟩ := copyRule_of_applications hp o.mode d r
  obtain ⟨hhead, hbody⟩ := within_copyRule (hR _ (o.issues_fresh hdepth hd happ)) hr
  have hunify := Unifier.alikeOr_unifyArgs hu hbindings hhead hgoal
  refine .tryRule (by rw [hsel]) hp (fun _ _ hq => hq) ?_
  rw [hcopy, hsel]
  refine hunify.paired hcounts fun c c' hnext =>
    ⟨?_, Nat.le_succ_of_le hdepth, rfl, fun g hg => ?_, hnext, rfl⟩
  · exact happ.trans (applications_le_copyRule o.mode d r p)
  · exact (List.mem_append.mp hg).elim (hbody g) (hrest g)

end Attempts

theorem lockstepAt_alikes {t : Task} (hu : t.options.unifier.occursCheck = true)
    (hkb : t.kb.All Term.HashFree) {depth : Nat} {p₀ : Progress}
    (hR : ∀ k, t.options.Issues depth p₀ k → ∀ v, R (suffixed (toString k) v)) :
    LockstepAt (t.options.limit.isExceededBy · = false) t t (alikes R depth p₀) where
  visit _ h := h
  infer h := h
  prune h := h
  depth hs := hs.2.2.depth
  mono hs hq _ := ⟨hs.1.trans hq, hs.2⟩
  tooDeep := by
    intro p p' s s' hs hp
    obtain ⟨_, _, hstates⟩ := hs
    rw [tooDeep, tooDeep, hstates.goals, hstates.depth]
    cases t.options.limit.floor with
    | none => exact .failed hp
    | some limit =>
        dsimp only
        split
        · exact .failed hp
        · exact .failed hp
  done := by
    intro p p' s s' hs hgoals
    exact ⟨hs.2.2.goals.trans hgoals, trivial⟩
  select := by
    intro p p' s s' g gs strategy hs hp hgoals
    obtain ⟨happ, hdepth, hstates⟩ := hs
    have hwithin := hstates.within
    rw [hgoals] at hwithin
    refine ⟨g, gs, hstates.goals.trans hgoals, ?_⟩
    cases strategy with
    | baseline => exact .ok hp (.some ⟨happ, hdepth, rfl, hwithin, hstates.bindings, rfl⟩)
    | constrained =>
        have hprop := alikeOr_propagate hstates.bindings hu t.kb hwithin
        rw [select, select]
        generalize propagate t.kb t.options.unifier (g :: gs) s.bindings = x,
          propagate t.kb t.options.unifier (g :: gs) s'.bindings = x' at hprop
        cases hprop with
        | error e => exact .error hp
        | ok ho =>
            cases ho with
            | none => exact .ok hp .none
            | @some c c' hnext =>
                dsimp only
                rw [selectIndex?_of_alike hnext t.kb hwithin]
                rcases selectIndex? t.kb (g :: gs) c with _ | i
                · exact .error hp
                -- The goals are only rearranged.
                · refine .ok hp (.some ⟨happ, hdepth, rfl, fun g' hg' => ?_, hnext, rfl⟩)
                  exact hwithin g' ((mem_pick i).mpr (List.mem_cons.mp hg'))
  kind := by
    intro p p' sel sel' d hs
    rw [(Selection.parts_of_alike hs.2.2).1]
    exact ⟨rfl, rfl⟩
  trace := by
    intro p p' sel sel' d hs hp
    obtain ⟨hsel, hgoal, _, hbindings⟩ := Selection.parts_of_alike hs.2.2
    rw [hsel, traceGoal, traceGoal, Goal.substitute?_eq hbindings.acyclic,
      Goal.substitute?_eq hbindings.acyclic']
    split
    · exact .ok hp hp
    · exact .ok hp hp
  inner := by
    intro p p' sel sel' d hs _
    obtain ⟨hsel, hgoal, _, hbindings⟩ := Selection.parts_of_alike hs.2.2
    rw [hsel]
    refine ⟨rfl, hs.1, Nat.le_succ_of_le hs.2.1, rfl, fun g hg => ?_, hbindings, rfl⟩
    obtain rfl := List.mem_singleton.mp hg
    exact hgoal
  rest := by
    intro p p' sel sel' d hs _
    obtain ⟨hsel, _, hrest, hbindings⟩ := Selection.parts_of_alike hs.2.2
    rw [hsel]
    exact ⟨hs.1, Nat.le_succ_of_le hs.2.1, rfl, hrest, hbindings, rfl⟩
  solve := by
    intro p p' sel sel' d hs hp _ _
    obtain ⟨hsel, hgoal, hrest, hbindings⟩ := Selection.parts_of_alike hs.2.2
    rw [hsel]
    exact (Builtin.alikeOr_solve hu hbindings hgoal).paired hp fun c c' hnext =>
      ⟨hs.1, Nat.le_succ_of_le hs.2.1, rfl, hrest, hnext, rfl⟩
  attempts := by
    intro p p' sel sel' d hd hs _ _
    have hsel := (Selection.parts_of_alike hs.2.2).1
    have hpredicate : sel'.goal.predicate = sel.goal.predicate := by rw [hsel]
    rw [attempts, attempts, hpredicate]
    refine forall₂_attempts (fun f hf q q' hs hq => ?_) fun r hr q q' hs hq => ?_
    · exact paired_tryFact_alikes hu hR hd hs hq
        (hkb.1 f (KnowledgeBase.mem_facts_of_mem_factsFor hf))
    · exact paired_tryRule_alikes hu hR hd hs hq
        (hkb.2 r (KnowledgeBase.mem_rules_of_mem_rulesFor hr))

/-- Searches for the same goals under bindings that are alike end with the same fault or with as
many results, after as many copies. -/
theorem search_of_alike {t : Task} (hu : t.options.unifier.occursCheck = true)
    (hkb : t.kb.All Term.HashFree) {s s' : State} {p p' : Progress}
    (hR : ∀ k, t.options.Issues s.depth p k → ∀ v, R (suffixed (toString k) v)) (hs : s.Alike R s')
    (hp : p'.applications = p.applications) (strategy : Strategy) :
    ((∃ e, (search t strategy s p).outcome = .error e ∧
          (search t strategy s' p').outcome = .error e) ∨
        ∃ rs rs', (search t strategy s p).outcome = .ok rs ∧
          (search t strategy s' p').outcome = .ok rs' ∧ rs.length = rs'.length) ∧
      (search t strategy s' p').progress.applications =
        (search t strategy s p).progress.applications := by
  -- Clauses are copied down to the limit only.
  have hsearch := (lockstepAt_alikes hu hkb hR).search rfl rfl (fun _ _ hd => hd) strategy
    ⟨Nat.le_refl _, Nat.le_refl _, hs⟩ hp
  obtain ⟨hends, hcounts⟩ := hsearch.of_not_excused (fun _ => False.elim) fun _ => False.elim
  refine ⟨hends.imp_right ?_, hcounts⟩
  rintro ⟨rs, rs', hrs, hrs', hsame⟩
  exact ⟨rs, rs', hrs, hrs', hsame.length_eq⟩

end Search

end Clausal
