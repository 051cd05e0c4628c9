import Clausal.Proofs.Search.Apart
import Clausal.Proofs.Search.ProofTree
import Clausal.Proofs.Unify.Exact

/-!
# Resolution of exact goals

Between exact terms a step of the search is described by solutions. The solutions of the bindings
that a built-in goal leaves are those of the given bindings under which the goal holds. A clause
copy has the instances of the clause and nothing else, and it can be given any of them without
touching the names in the state.
-/

namespace Clausal

theorem Term.inherited_isExact : Term.Inherited Term.IsExact where
  hereditary := hereditary_isExact
  mapVars h ρ := isExact_mapVars ρ h
  value := by
    intro b u n hb hvalues hu h
    obtain ⟨k, rfl⟩ := hvalues.exists_int_of_evaluate hu h
    rfl

/-! ## Goals with built-in predicates -/

namespace Goal

variable {g : Goal} {l r : Term}

theorem holds_equal_iff (hp : g.predicate = "=") (hargs : g.args = [l, r]) : g.Holds ↔ l = r := by
  constructor
  · rintro ⟨l', r', hargs', ⟨_, heq⟩ | ⟨c, m, n, hc, _⟩ | ⟨his, _⟩⟩
    · obtain ⟨rfl, rfl⟩ : l = l' ∧ r = r' := by simpa [hargs] using hargs'
      exact heq
    · simp [hp, Comparison.ofSymbol?] at hc
    · simp [hp] at his
  · intro heq
    exact ⟨l, r, hargs, .inl ⟨hp, heq⟩⟩

theorem holds_is_iff (hp : g.predicate = "is") (hargs : g.args = [l, r]) :
    g.Holds ↔ ∃ n, (∅ : Bindings).evaluate r = .ok n ∧ l = n.normalize.toTerm := by
  constructor
  · rintro ⟨l', r', hargs', ⟨heq, _⟩ | ⟨c, m, n, hc, _⟩ | ⟨_, hvalue⟩⟩
    · simp [hp] at heq
    · simp [hp, Comparison.ofSymbol?] at hc
    · obtain ⟨rfl, rfl⟩ : l = l' ∧ r = r' := by simpa [hargs] using hargs'
      exact hvalue
  · intro hvalue
    exact ⟨l, r, hargs, .inr (.inr ⟨hp, hvalue⟩)⟩

end Goal

theorem Term.number?_of_apply {t : Term} {θ : String → Term} (ht : ∀ x, t ≠ .var x) :
    (t.apply θ).number? = t.number? := by
  cases t with
  | var x => exact (ht x rfl).elim
  | compound f args => rw [apply_compound]; rfl
  | _ => rfl

/-- A ground argument that is a number under some solution resolves to that number. -/
theorem Bindings.Acyclic.number?_resolve {b : Bindings} (hb : b.Acyclic) {θ : String → Term}
    (hθ : b.SolvedBy θ) {t : Term} (hground : (t.apply b.image).isGround = true) {n : Number}
    (h : (t.apply θ).number? = some n) : (b.resolve t).number? = some n := by
  rw [← hb.apply_image hθ, Term.apply_of_isGround hground,
    ← hb.apply_resolve hb.solvedBy_image] at h
  rcases (b.resolve t).var_or_nonvar with ⟨y, hy⟩ | hnonvar
  · rw [hy, Term.apply_var, image_of_unbound (hb.get?_of_resolve_var hy)] at h
    simp [Term.number?] at h
  · rwa [Term.number?_of_apply hnonvar] at h

namespace Builtin

variable {u : Unifier} {b c : Bindings} {g : Goal} {θ : String → Term}

/-- The solutions after a built-in goal are those under which it holds. -/
theorem solve_solvedBy_iff (hu : u.occursCheck = true) (hb : b.Acyclic)
    (hvalues : b.Values Term.IsExact) (hg : g.All Term.IsExact)
    (h : solve u g b = .ok (some c)) (θ : String → Term) :
    c.SolvedBy θ ↔ b.SolvedBy θ ∧ (g.apply θ).Holds := by
  obtain ⟨l, r, hargs, hcases⟩ := solve_eq_some h
  have hl := hvalues.resolve (hg l (by simp [hargs]))
  have hr := hvalues.resolve (hg r (by simp [hargs]))
  have hargs' : (g.apply θ).args = [l.apply θ, r.apply θ] := by simp [Goal.apply, hargs]
  rcases hcases with ⟨hp, hunify⟩ | ⟨cmp, m, n, hcmp, hm, hn, hholds, rfl⟩ | ⟨hp, n, hn, hunify⟩
  · have hsolver := Unifier.unify_solvedBy_iff hu hb hvalues hl hr hunify θ
    rw [Goal.holds_equal_iff (g := g.apply θ) hp hargs']
    constructor
    · intro hc
      obtain ⟨hθ, heq⟩ := hsolver.mp ⟨c, rfl, hc⟩
      rw [hb.apply_resolve hθ, hb.apply_resolve hθ] at heq
      exact ⟨hθ, heq⟩
    · rintro ⟨hθ, heq⟩
      rw [← hb.apply_resolve hθ, ← hb.apply_resolve hθ r] at heq
      obtain ⟨c', hc', hsolved⟩ := hsolver.mpr ⟨hθ, heq⟩
      obtain rfl := Option.some.inj hc'
      exact hsolved
  · refine ⟨fun hθ =>
      ⟨hθ, _, _, hargs', .inr (.inl ⟨cmp, m, n, hcmp, ?_, ?_, hholds⟩)⟩, fun h => h.1⟩
    · rw [← hb.apply_resolve hθ]
      exact number?_apply hm θ
    · rw [← hb.apply_resolve hθ]
      exact number?_apply hn θ
  · obtain ⟨k, rfl⟩ := hvalues.exists_int_of_evaluate hr hn
    have hsolver := Unifier.unify_solvedBy_iff hu hb hvalues hl rfl hunify θ
    rw [Goal.holds_is_iff (g := g.apply θ) hp hargs']
    have hvalue : b.SolvedBy θ → (∅ : Bindings).evaluate (r.apply θ) = .ok (.int k) := by
      intro hθ
      rw [← hb.apply_resolve hθ]
      exact hb.evaluate_of_solvedBy hθ hn
    constructor
    · intro hc
      obtain ⟨hθ, heq⟩ := hsolver.mp ⟨c, rfl, hc⟩
      rw [hb.apply_resolve hθ] at heq
      exact ⟨hθ, .int k, hvalue hθ, heq⟩
    · rintro ⟨hθ, n, hn, heq⟩
      obtain rfl : n = .int k := by simpa [hvalue hθ] using hn.symm
      rw [← hb.apply_resolve hθ] at heq
      obtain ⟨c', hc', hsolved⟩ := hsolver.mpr ⟨hθ, heq⟩
      obtain rfl := Option.some.inj hc'
      exact hsolved

/-- A goal that was solved has all it waits for, in every instance. -/
theorem not_waits_of_solve (hb : b.Acyclic) (hneg : g.negated = false)
    (h : solve u g b = .ok (some c)) (hθ : b.SolvedBy θ) : ¬ (g.apply θ).Waits := by
  obtain ⟨l, r, hargs, hcases⟩ := solve_eq_some h
  have hsame : ∀ t : Term, t.apply (∅ : Bindings).image = t := fun t => by
    rw [Bindings.image_empty, Term.apply_var_eq]
  have hargs' : (g.apply θ).args = [l.apply θ, r.apply θ] := by simp [Goal.apply, hargs]
  rcases hcases with ⟨hp, _⟩ | ⟨cmp, m, n, hcmp, hm, hn, _⟩ | ⟨hp, n, hn, _⟩
  · rw [Goal.Waits, Search.isReady?_equal (g := g.apply θ) hneg hp]
    simp
  · have hground : ∀ {t : Term} {k : Number}, (b.resolve t).number? = some k →
        (t.apply θ).isGround = true := by
      intro t k hk
      rw [← hb.apply_resolve hθ]
      exact Term.isGround_of_number? (number?_apply hk θ)
    rw [Goal.Waits, Search.isReady?_comparison (g := g.apply θ) Bindings.acyclic_empty hcmp hargs',
      hsame, hsame, hground hm, hground hn]
    simp
  · have hvalue := hb.evaluate_of_solvedBy hθ hn
    rw [hb.apply_resolve hθ] at hvalue
    rw [Goal.Waits,
      Search.isReady?_is (g := g.apply θ) Bindings.acyclic_empty hneg hp hargs', hsame,
      Bindings.isGround_of_evaluate_empty hvalue]
    simp

/-- A goal that holds under a solution is solved, if it has what it waits for. -/
theorem exists_of_holds (hu : u.occursCheck = true) (hb : b.Acyclic)
    (hvalues : b.Values Term.IsExact) (hg : g.All Term.IsExact)
    (hneg : g.negated = false) (hready : Search.isReady? g b ≠ some false) (hθ : b.SolvedBy θ)
    (hholds : (g.apply θ).Holds) {o : Option Bindings} (h : solve u g b = .ok o) :
    ∃ c, o = some c := by
  obtain ⟨l', r', hargs', hcases⟩ := hholds
  obtain ⟨l, r, hargs⟩ : ∃ l r, g.args = [l, r] :=
    List.length_eq_two.mp (by simpa [Goal.apply] using congrArg List.length hargs')
  obtain ⟨rfl, rfl⟩ : l.apply θ = l' ∧ r.apply θ = r' := by simpa [Goal.apply, hargs] using hargs'
  have hl := hvalues.resolve (hg l (by simp [hargs]))
  have hr := hvalues.resolve (hg r (by simp [hargs]))
  rw [solve, hargs] at h
  dsimp only at h
  rcases hcases with ⟨hp, heq⟩ | ⟨cmp, m, n, hcmp, hm, hn, hholds⟩ | ⟨hp, n, hn, heq⟩
  · have hp : g.predicate = "=" := hp
    rw [solveResolved, if_pos hp] at h
    rw [← hb.apply_resolve hθ, ← hb.apply_resolve hθ r] at heq
    obtain ⟨c, hc, _⟩ := (Unifier.unify_solvedBy_iff hu hb hvalues hl hr h θ).mpr ⟨hθ, heq⟩
    exact ⟨c, hc⟩
  · have hcmp : Comparison.ofSymbol? g.predicate = some cmp := hcmp
    rw [Search.isReady?_comparison hb hcmp hargs] at hready
    obtain ⟨hgl, hgr⟩ : (l.apply b.image).isGround = true ∧ (r.apply b.image).isGround = true := by
      simpa using hready
    have hne : g.predicate ≠ "=" := by
      intro hp
      simp [hp, Comparison.ofSymbol?] at hcmp
    rw [solveResolved, if_neg hne, hcmp] at h
    dsimp only at h
    rw [hb.number?_resolve hθ hgl hm, hb.number?_resolve hθ hgr hn] at h
    dsimp only at h
    rw [if_pos hholds] at h
    exact ⟨b, (Except.ok.inj h).symm⟩
  · have hp : g.predicate = "is" := hp
    rw [Search.isReady?_is hb hneg hp hargs] at hready
    have hgr : (r.apply b.image).isGround = true := by simpa using hready
    have hvalue : b.evaluate (b.resolve r) = .ok n := by
      rw [hb.evaluate_eq_ok_iff, hb.apply_resolve hb.solvedBy_image]
      rwa [← hb.apply_image hθ, Term.apply_of_isGround hgr] at hn
    have hsolved : solveResolved u g.predicate (b.resolve l) (b.resolve r) b =
        u.unify (b.resolve l) n.normalize.toTerm b := by
      simp [solveResolved, hp, Comparison.ofSymbol?, valueTerm?, hvalue]
    rw [hsolved] at h
    obtain ⟨k, rfl⟩ := hvalues.exists_int_of_evaluate hr hvalue
    rw [← hb.apply_resolve hθ] at heq
    obtain ⟨c, hc, _⟩ := (Unifier.unify_solvedBy_iff hu hb hvalues hl rfl h θ).mpr ⟨hθ, heq⟩
    exact ⟨c, hc⟩

end Builtin

/-! ## Clauses -/

theorem Term.InProgram.isPlain {u : Term} (h : u.InProgram Term.IsExact) : u.IsPlain :=
  ⟨isFinite_of_isExact h.1, h.2⟩

theorem Term.InProgram.var {x : String} (h : Clausal.HashFree x) :
    (Term.var x).InProgram Term.IsExact := by
  refine ⟨rfl, fun y hy => ?_⟩
  obtain rfl : y = x := by simpa [Term.vars] using hy
  exact h

namespace Search

/-- A copy of a clause for a state in which only smaller numbers occur. -/
structure IsCopy (k : Nat) (r copy : Rule) : Prop where
  head : copy.head.All Term.IsExact
  exists_clause : ∀ θ : String → Term, ∃ σ : String → Term,
    copy.head.args.map (Term.apply θ) = r.head.args.map (Term.apply σ) ∧
      copy.body.map (Goal.apply θ) = r.body.map (Goal.apply σ)
  exists_copy : ∀ θ σ : String → Term, ∃ η : String → Term, (∀ x, IsOld k x → η x = θ x) ∧
    copy.head.args.map (Term.apply η) = r.head.args.map (Term.apply σ) ∧
      copy.body.map (Goal.apply η) = r.body.map (Goal.apply σ)

variable {t : Task} {sel : Selection} {depth : Nat} {p : Progress}

theorem isCopy_copyFact {f : Fact} (hf : f.All (Term.InProgram Term.IsExact)) (mode : RenamingMode)
    (depth : Nat) (p : Progress) :
    IsCopy (p.fresh mode depth) ⟨f, []⟩ ⟨(copyFact mode depth f p).1, []⟩ := by
  have hterms := inState_copyFact Term.inherited_isExact.toCopied hf mode depth p
  refine ⟨fun a ha => (hterms a ha).1, ?_, ?_⟩
  · intro θ
    obtain ⟨σ, hσ⟩ := exists_apply_copyFact mode depth f p θ
    exact ⟨σ, hσ, rfl⟩
  · intro θ σ
    obtain ⟨η, hold, hη⟩ :=
      exists_extension_copyFact (fun a ha => (hf a ha).2) mode depth p θ σ
    exact ⟨η, hold, hη, rfl⟩

theorem isCopy_copyRule {r : Rule} (hr : r.All (Term.InProgram Term.IsExact)) (mode : RenamingMode)
    (depth : Nat) (p : Progress) :
    IsCopy (p.fresh mode depth) r (copyRule mode depth r p).1 := by
  have hterms := inState_copyRule Term.inherited_isExact.toCopied hr mode depth p
  exact ⟨fun a ha => (hterms.1 a ha).1, exists_apply_copyRule mode depth r p,
    exists_extension_copyRule (hr.mono fun _ h => h.2) mode depth p⟩

/-- What an attempt with a clause does when it meets no fault. -/
def Tries (t : Task) (sel : Selection) (depth : Nat) (attempt : Progress → Attempt)
    (r : Rule) : Prop :=
  ∀ p o p', attempt p = (.ok o, p') →
    r.head.arity ≠ sel.goal.arity ∧ o = none ∨
      ∃ copy b, IsCopy (p.fresh t.options.mode depth) r copy ∧
        t.options.unifier.unifyArgs copy.head.args sel.goal.args sel.bindings = .ok b ∧
        o = b.map fun b => ⟨copy.body ++ sel.rest, b, depth + 1⟩

/-- The attempts are made with the clauses of the predicate, one after the other. -/
theorem forall₂_tries (hkb : t.kb.All (Term.InProgram Term.IsExact)) (sel : Selection)
    (depth : Nat) :
    List.Forall₂ (Tries t sel depth) (attempts t sel depth)
      (t.kb.clausesFor sel.goal.predicate) := by
  have hfacts : List.Forall₂ (Tries t sel depth)
      ((t.kb.factsFor sel.goal.predicate).map (tryFact t.options sel depth))
      ((t.kb.factsFor sel.goal.predicate).map fun f => ⟨f, []⟩) := by
    rw [List.forall₂_map_left_iff, List.forall₂_map_right_iff, List.forall₂_same]
    intro f hf p o p' hattempt
    rcases tryFact_ok hattempt with harity | ⟨b, hunify, ho, _⟩
    · exact .inl harity
    · refine .inr ⟨⟨(copyFact t.options.mode depth f p).1, []⟩, b, ?_, hunify, ho⟩
      exact isCopy_copyFact (hkb.1 f (KnowledgeBase.mem_facts_of_mem_factsFor hf)) _ depth p
  have hrules : List.Forall₂ (Tries t sel depth)
      ((t.kb.rulesFor sel.goal.predicate).map (tryRule t.options sel depth))
      (t.kb.rulesFor sel.goal.predicate) := by
    rw [List.forall₂_map_left_iff, List.forall₂_same]
    intro r hr p o p' hattempt
    rcases tryRule_ok hattempt with harity | ⟨b, hunify, ho, _⟩
    · exact .inl harity
    · refine .inr ⟨(copyRule t.options.mode depth r p).1, b, ?_, hunify, ho⟩
      exact isCopy_copyRule (hkb.2 r (KnowledgeBase.mem_rules_of_mem_rulesFor hr)) _ depth p
  exact List.rel_append hfacts hrules

end Search

end Clausal
