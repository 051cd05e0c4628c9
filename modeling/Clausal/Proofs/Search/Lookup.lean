import Clausal.Proofs.Search.MapVars
import Clausal.Proofs.Search.ProofTree
import Clausal.Proofs.Search.Recursion
import Clausal.Proofs.Unify.Ground

/-!
# Looking up a ground goal

Facts come before rules, so the search for one proof of a ground goal with a stored copy ends among
the facts: it tries them in order, and the first that matches leaves no goals. Neither strategy does
anything else before: there is one goal, and nothing in it to be bound. So no rule is used and no
level but the next one is entered.
-/

namespace Clausal

/-- A positive ground goal of a user-defined predicate, with a text. -/
structure Goal.IsLookup (g : Goal) : Prop where
  positive : g.negated = false
  user : isBuiltin g.predicate = false
  args : ∀ a ∈ g.args, a.isGround = true ∧ a.hasText = true

namespace Search

theorem hasText_copyFact (mode : RenamingMode) (depth : Nat) (f : Fact) (p : Progress) :
    (copyFact mode depth f p).1.hasText = f.hasText := by
  rw [copyFact]
  split
  · rfl
  · exact Term.hasTextAll_mapVarsAll _ f.args

section Lookup

variable {g : Goal} (hg : g.IsLookup)
include hg

theorem isReady?_lookup (b : Bindings) : isReady? g b = some true := by
  have hcomparison : (Comparison.ofSymbol? g.predicate).isSome = false := by
    cases hsymbol : Comparison.ofSymbol? g.predicate with
    | none => rfl
    | some c => simpa [hg.user] using isBuiltin_of_ofSymbol? hsymbol
  have his : (g.predicate == "is") = false := by
    refine beq_false_of_ne fun h => ?_
    have huser := hg.user
    rw [h] at huser
    simp [isBuiltin, Builtin.names] at huser
  rw [isReady?, hg.positive, hcomparison, his]
  rfl

theorem hasUnbound_lookup : hasUnbound g ∅ = false := by
  rw [hasUnbound, List.any_eq_false]
  intro a ha
  have hnonvar := Term.ne_var_of_isGround (hg.args a ha).1
  rw [Bindings.resolve_of_nonvar hnonvar]
  cases a with
  | var x => exact (hnonvar x rfl).elim
  | _ => simp [Term.isVar]

theorem propagate_lookup {kb : KnowledgeBase} (u : Unifier)
    (honly : ∀ f, kb.factsFor g.predicate = [f] → f.arity = g.arity) :
    propagate kb u [g] ∅ = .ok (some ∅) := by
  rw [propagate, hg.positive, hg.user, if_neg (by simp)]
  split
  · next f hfacts _ =>
    rw [if_neg (by simpa using honly f hfacts), hasUnbound_lookup hg, Bool.and_false,
      if_neg Bool.false_ne_true]
    rfl
  · rfl

theorem select_lookup {kb : KnowledgeBase} (u : Unifier) (strategy : Strategy)
    (honly : ∀ f, kb.factsFor g.predicate = [f] → f.arity = g.arity) :
    select kb u strategy g [] ∅ = .ok (some ⟨g, [], ∅⟩) := by
  cases strategy with
  | baseline => rfl
  | constrained =>
      have hindex : selectIndex? kb [g] ∅ = some 0 := by
        rw [selectIndex?, selectFrom?, isReady?_lookup hg]
        rfl
      rw [select, propagate_lookup hg u honly]
      dsimp only
      rw [hindex]
      rfl

/-- A fact with a text matches or does not; if it does, no goal is left. -/
theorem tryFact_lookup (o : Options) (depth : Nat) {f : Fact}
    (hf : f.arity = g.arity → f.hasText = true) (p : Progress) :
    ∃ r q, tryFact o ⟨g, [], ∅⟩ depth f p = (.ok r, q) ∧ ∀ s, r = some s → s.goals = [] := by
  rw [tryFact]
  split
  · exact ⟨none, p, rfl, fun s hs => by cases hs⟩
  · next harity =>
    have htext : (copyFact o.mode depth f p).1.hasText = true := by
      rw [hasText_copyFact]
      exact hf (by simpa using harity)
    rw [Fact.hasText, Term.hasTextAll_eq, List.all_eq_true] at htext
    obtain ⟨r, hr⟩ := Unifier.exists_unifyArgs_of_isGround o.unifier hg.args htext
    dsimp only
    rw [hr]
    cases r with
    | none => exact ⟨none, _, rfl, fun s hs => by cases hs⟩
    | some b => exact ⟨_, _, rfl, fun s hs => by cases hs; rfl⟩

theorem tryFact_copy (o : Options) (depth : Nat) {f : Fact} (hargs : f.args = g.args)
    (hfin : ∀ a ∈ g.args, a.isFinite = true) (p : Progress) :
    ∃ s q, tryFact o ⟨g, [], ∅⟩ depth f p = (.ok (some s), q) := by
  have harity : f.arity = g.arity := congrArg List.length hargs
  have hground : f.isGround = true := by
    rw [Fact.isGround, hargs, Term.isGroundAll_eq, List.all_eq_true]
    exact fun a ha => (hg.args a ha).1
  obtain ⟨c, hc⟩ := Unifier.unifyArgs_self_of_isGround o.unifier hg.args hfin
  rw [tryFact, if_neg (by simpa using harity), copyFact, if_pos hground]
  dsimp only
  rw [hargs, hc]
  exact ⟨_, _, rfl⟩

end Lookup

/-- A walk stops at the first attempt with a successor, if every successor is enough. -/
theorem walkAttempts_of_enough {go : State → Found → Walk} {as : List (Progress → Attempt)}
    (hgo : ∀ s f, s.goals = [] → ∃ b q, go s f = .enough ⟨b :: f.results, q⟩)
    (has : ∀ a ∈ as, ∀ p, ∃ r q, a p = (.ok r, q) ∧ ∀ s, r = some s → s.goals = [])
    (hsome : ∃ a ∈ as, ∀ p, ∃ s q, a p = (.ok (some s), q)) (as' : List (Progress → Attempt))
    (f : Found) : ∃ b q, walkAttempts go (as ++ as') f = .enough ⟨b :: f.results, q⟩ := by
  induction as generalizing f with
  | nil => simp at hsome
  | cons a as ih =>
      obtain ⟨r, q, ha, hgoals⟩ := has a List.mem_cons_self f.progress
      rw [List.cons_append, walkAttempts, ha]
      cases r with
      | some s =>
          obtain ⟨b, q', hgo⟩ := hgo s { f with progress := q } (hgoals s rfl)
          dsimp only
          rw [hgo]
          exact ⟨b, q', rfl⟩
      | none =>
          obtain ⟨a', ha', hsome⟩ := hsome
          rcases List.mem_cons.mp ha' with rfl | hmem
          · obtain ⟨s, q', hs⟩ := hsome f.progress
            rw [ha] at hs
            cases hs
          · exact ih (fun a ha => has a (List.mem_cons_of_mem _ ha)) ⟨a', hmem, hsome⟩ _

/-- One proof of a ground goal with a stored copy is found among the facts. -/
theorem search_lookup {t : Task} (hwanted : t.wanted = some 1)
    (hlimit : t.options.limit.isExceededBy 1 = false) {g : Goal} (hg : g.IsLookup)
    (hfin : ∀ a ∈ g.args, a.isFinite = true)
    (htexts : ∀ f ∈ t.kb.factsFor g.predicate, f.arity = g.arity → f.hasText = true) {f : Fact}
    (hmem : f ∈ t.kb.factsFor g.predicate) (hargs : f.args = g.args) (strategy : Strategy)
    (p : Progress) : ∃ b q, search t strategy ⟨[g], ∅, 0⟩ p = ⟨.ok [b], q⟩ := by
  refine search_of_walk (P := fun r => ∃ b q, r = ⟨.ok [b], q⟩) (by simp) ?_
  filter_upwards [levels_eventually_lt (n := 1) (by simpa using hlimit)] with n' hn'
  obtain ⟨n, rfl⟩ := Nat.exists_eq_add_of_le' hn'
  have hselect : select t.kb t.options.unifier strategy g [] ∅ = .ok (some ⟨g, [], ∅⟩) := by
    refine select_lookup hg t.options.unifier strategy fun f' hf' => ?_
    obtain rfl : f = f' := by simpa [hf'] using hmem
    exact congrArg List.length hargs
  obtain ⟨q, htrace⟩ : ∃ q, traceGoal t.options ⟨g, [], ∅⟩ 0 (p.visit 0).infer = .ok q := by
    rw [traceGoal]
    split
    · rw [Goal.substitute?_eq Bindings.acyclic_empty]
      exact ⟨_, rfl⟩
    · exact ⟨_, rfl⟩
  have hdone : ∀ (s : State) (f : Found), s.goals = [] →
      ∃ b q, walk t (n + 1) strategy (some 1) s f = .enough ⟨b :: f.results, q⟩ := by
    intro s f hs
    rw [walk_done hs, Found.add, if_pos (by simp [Machine.isEnough])]
    exact ⟨_, _, rfl⟩
  have hfacts : ∀ a ∈ (t.kb.factsFor g.predicate).map (tryFact t.options ⟨g, [], ∅⟩ 0),
      ∀ p, ∃ r q, a p = (.ok r, q) ∧ ∀ s, r = some s → s.goals = [] := by
    intro a ha p
    obtain ⟨f', hf', rfl⟩ := List.mem_map.mp ha
    exact tryFact_lookup hg t.options 0 (htexts f' hf') p
  obtain ⟨b, q', hwalk⟩ := walkAttempts_of_enough hdone hfacts
    ⟨_, List.mem_map_of_mem hmem, tryFact_copy hg t.options 0 hargs hfin⟩
    ((t.kb.rulesFor g.predicate).map (tryRule t.options ⟨g, [], ∅⟩ 0)) ⟨[], q⟩
  refine ⟨b, q', ?_⟩
  rw [hwanted, walk_selected rfl hselect, walkSelected]
  dsimp only
  rw [htrace]
  dsimp only
  rw [hg.positive, hg.user, if_neg Bool.false_ne_true, if_neg Bool.false_ne_true]
  change (walkAttempts _ (_ ++ _) _).report = _
  rw [hwalk]
  rfl

end Search

end Clausal
