import Clausal.Proofs.Engine.Strict
import Clausal.Proofs.Search.Soundness

/-!
# Answers of strict engines are ground

Range restriction of rules carries over to answers. A goal that a ground fact answers is ground. A
goal that a rule answers is ground if the instances of the positive goals of its body are, since
these hold all variables of the head. A comparison is between numbers, and `is` has a number on its
left and only numbers on its right, so they bind what they mention or fail. Only `=` can leave
variables, and it is kept out of the rules.
-/

namespace Clausal

namespace Term

theorem Alike.vars_eq {s t : Term} (h : Alike s t) : s.vars = t.vars := by
  induction s generalizing t with
  | var _ | atom _ | int _ | str _ =>
      cases h
      rfl
  | float x => cases h <;> rfl
  | compound f args ih =>
      cases h with
      | refl => rfl
      | compound hargs =>
          rw [vars, vars]
          clear f
          induction hargs with
          | nil => rfl
          | cons hab _ ihs =>
              rw [varsAll, varsAll, ih _ (by simp) hab, ihs fun a ha => ih a (by simp [ha])]

theorem Alike.isGround {s t : Term} (h : Alike s t) (hs : s.isGround = true) :
    t.isGround = true := by
  rw [isGround_iff] at hs ⊢
  rwa [← h.vars_eq]

theorem isGroundAll_of_forall₂ {ss ts : List Term} (h : List.Forall₂ Alike ss ts)
    (hss : isGroundAll ss = true) : isGroundAll ts = true := by
  induction h with
  | nil => rfl
  | cons hst _ ih =>
      obtain ⟨hs, hss⟩ := Bool.and_eq_true_iff.mp hss
      exact Bool.and_eq_true_iff.mpr ⟨hst.isGround hs, ih hss⟩

theorem isGround_apply_iff {θ : String → Term} {t : Term} :
    (t.apply θ).isGround = true ↔ ∀ x ∈ t.vars, (θ x).isGround = true := by
  simp only [isGround_iff, mem_vars_apply]
  grind

theorem isGroundAll_map_apply_iff {θ : String → Term} {ts : List Term} :
    isGroundAll (ts.map (apply θ)) = true ↔ ∀ x ∈ varsAll ts, (θ x).isGround = true := by
  simp only [isGroundAll_eq, List.all_map, List.all_eq_true, Function.comp_apply,
    isGround_apply_iff, mem_varsAll]
  grind

end Term

/-- A built-in goal that holds is ground, unless it is an equation. -/
theorem Derivable.isGround_of_builtin {kb : KnowledgeBase} {g : Goal}
    (h : Derivable kb Term.Alike g) (hbuiltin : isBuiltin g.predicate = true)
    (hequal : g.predicate ≠ "=") : g.isGround = true := by
  cases h with
  | fact hp | rule hp => simp [hp] at hbuiltin
  | equal => exact (hequal rfl).elim
  | compare _ hs ht _ =>
      simp [Goal.isGround, Term.isGroundAll, Term.isGround_of_number? hs,
        Term.isGround_of_number? ht]
  | @value l e n he hl =>
      have hvalue : n.normalize.toTerm.vars = [] := by
        cases n.normalize <;> rfl
      have hl : l.isGround = true := Term.isGround_iff.mpr (by simp [hl.vars_eq, hvalue])
      simp [Goal.isGround, Term.isGroundAll, hl, Bindings.isGround_of_evaluate_empty he]

/-- No rule has an equation in its body. -/
def KnowledgeBase.IsEquationFree (kb : KnowledgeBase) : Prop :=
  ∀ r ∈ kb.rules.all, ∀ g ∈ r.body, g.predicate ≠ "="

instance (kb : KnowledgeBase) : Decidable kb.IsEquationFree :=
  inferInstanceAs (Decidable (∀ r ∈ kb.rules.all, ∀ g ∈ r.body, g.predicate ≠ "="))

/-- The head of a safe rule is ground if the positive goals of its body are. -/
theorem Rule.IsProper.isGround_head {r : Rule} (h : r.IsProper) {σ : String → Term}
    (hbody : ∀ g ∈ r.body, g.negated = false → (g.apply σ).isGround = true) :
    Term.isGroundAll (r.head.args.map (Term.apply σ)) = true := by
  refine Term.isGroundAll_map_apply_iff.mpr fun x hx => ?_
  obtain ⟨g, hg, hneg, hxg⟩ := h.safe x hx
  exact Term.isGroundAll_map_apply_iff.mp (hbody g hg hneg) x hxg

namespace Search

variable {t : Task} {strategy : Strategy} {s s' : State} {p : Progress} {r : Bindings}

/-- Bindings under which the positive goals of a state are ground, apart from equations. -/
structure State.GroundedBy (s : State) (r : Bindings) : Prop where
  acyclic : r.Acyclic
  extends_bindings : r.Extends s.bindings
  ground : ∀ g ∈ s.goals, g.negated = false → g.predicate ≠ "=" → (g.apply r.image).isGround = true

/-- What grounds a successor grounds the state. -/
theorem State.GroundedBy.of_successor (hu : t.options.unifier.occursCheck = true)
    (hkb : t.kb.IsProper) (hequal : t.kb.IsEquationFree) (hs : s.bindings.Acyclic)
    (h : Successor t strategy s p s') (hr : s'.GroundedBy r) : s.GroundedBy r := by
  -- As for soundness, only the selected goal is not a goal of the successor.
  have hgrounded : ∀ {sel : Selection} {b : Bindings}, Selects t strategy s sel →
      b.Extends sel.bindings → r.Extends b → (∀ g ∈ sel.rest, g ∈ s'.goals) →
      (sel.goal.negated = false → sel.goal.predicate ≠ "=" →
        (sel.goal.apply r.image).isGround = true) → s.GroundedBy r := by
    intro sel b hsel hb hrb hrest hgoal
    refine ⟨hr.acyclic, (hrb.trans hb).trans (hsel.sound hu hs).1, fun g hg => ?_⟩
    rcases hsel.mem_goals_iff.mp hg with rfl | hg
    · exact hgoal
    · exact hr.ground g (hrest g hg)
  cases h with
  | negated hsel hneg =>
      refine hgrounded hsel (.refl _) hr.extends_bindings (fun g hg => hg) fun hpos => ?_
      simp [hpos] at hneg
  | builtin hsel hneg hbuiltin hsolve =>
      obtain ⟨hext, _, hgoal⟩ := Builtin.solve_sound t.kb hu (hsel.sound hu hs).2 hneg hsolve
      refine hgrounded hsel hext hr.extends_bindings (fun g hg => hg) fun _ hne => ?_
      exact (hgoal r hr.acyclic hr.extends_bindings).isGround_of_builtin hbuiltin hne
  | @fact sel f b hsel _ _ hf hunify =>
      have hb := (hsel.sound hu hs).2
      have hargs := Unifier.forall₂_alike_of_unifyArgs hu hb hunify hr.acyclic hr.extends_bindings
      obtain ⟨σ, hσ⟩ := exists_apply_copyFact t.options.mode s.depth f p r.image
      refine hgrounded hsel ((Unifier.moves_of_unifyArgs hu hb hunify).extends_bindings hb)
        hr.extends_bindings (fun g hg => hg) fun _ _ => ?_
      have hground := (hkb.facts f (KnowledgeBase.mem_facts_of_mem_factsFor hf)).ground
      rw [hσ, Fact.map_apply_of_isGround hground] at hargs
      exact Term.isGroundAll_of_forall₂ hargs hground
  | @rule sel rule b hsel _ _ hrule hunify =>
      have hb := (hsel.sound hu hs).2
      have hargs := Unifier.forall₂_alike_of_unifyArgs hu hb hunify hr.acyclic hr.extends_bindings
      obtain ⟨σ, hσ, hbody⟩ := exists_apply_copyRule t.options.mode s.depth rule p r.image
      refine hgrounded hsel ((Unifier.moves_of_unifyArgs hu hb hunify).extends_bindings hb)
        hr.extends_bindings (fun g hg => List.mem_append_right _ hg) fun _ _ => ?_
      have hmem := KnowledgeBase.mem_rules_of_mem_rulesFor hrule
      refine Term.isGroundAll_of_forall₂ hargs (hσ ▸ (hkb.rules rule hmem).isGround_head ?_)
      intro g hg hneg
      have hcopied : g.apply σ ∈ (copyRule t.options.mode s.depth rule p).1.body.map
          (Goal.apply r.image) := hbody ▸ List.mem_map_of_mem hg
      obtain ⟨g', hg', heq⟩ := List.mem_map.mp hcopied
      have hgoal := hr.ground g' (List.mem_append_left _ hg')
      rw [heq] at hgoal
      exact hgoal ((congrArg Goal.negated heq).trans hneg)
        (congrArg Goal.predicate heq ▸ hequal rule hmem g hg)

/-- All results of a walk ground the goals it starts with. -/
theorem yields_grounded (strategy : Strategy) (hu : t.options.unifier.occursCheck = true)
    (hkb : t.kb.IsProper) (hequal : t.kb.IsEquationFree) (n : Nat) (wanted : Option Nat) (f : Found)
    (hs : s.bindings.Acyclic) : (walk t n strategy wanted s f).Yields f.results s.GroundedBy := by
  refine yields_walk (P := fun s => s.bindings.Acyclic)
    (Q := State.GroundedBy) ?_ ?_ ?_ n wanted s f hs
  · intro s p s' hs hsucc
    exact hsucc.acyclic hu hs
  · intro s hs hgoals
    exact ⟨hs, .refl _, fun g hg => by simp [hgoals] at hg⟩
  · intro s p s' r hs hsucc hr
    exact .of_successor hu hkb hequal hs hsucc hr

end Search

/-- If the store of a strict engine has no rule with an equation, then under the bindings of any
result every positive goal of a user-defined predicate is ground. Negated goals, comparisons and
evaluations may occur in the rules, and equations as well in the query. -/
theorem Evaluator.isGround_of_mem_solve {s : Settings} (hs : s.validation.strict.isTrue = true)
    (cs : List Engine.Call) {ev : Evaluator} (hkb : ev.kb = ((Engine.ofSettings s).calls cs).kb)
    (hequal : ev.kb.IsEquationFree) (hu : ev.options.unifier.occursCheck = true) {goals : List Goal}
    {results : List Bindings} (h : (ev.solve goals ∅).1 = .ok results) {r : Bindings}
    (hr : r ∈ results) {g : Goal} (hg : g ∈ goals) (hneg : g.negated = false)
    (huser : isBuiltin g.predicate = false) :
    ∃ g', g.substitute? r = some g' ∧ g'.isGround = true := by
  have hproper : ev.kb.IsProper :=
    hkb ▸ (Engine.becomes_calls (Engine.ofSettings s) cs).isProper hs .empty
  obtain ⟨n, f, hwalk, rfl⟩ := Search.walk_of_solve h
  have hyields := Search.yields_grounded (t := ⟨ev.kb, ev.options, none⟩) (s := ⟨goals, ∅, 0⟩)
    ev.options.strategy hu hproper hequal n none ⟨[], {}⟩ Bindings.acyclic_empty
  rw [hwalk] at hyields
  rcases hyields r (List.mem_reverse.mp hr) with hnil | hgrounded
  · simp at hnil
  · have hne : g.predicate ≠ "=" := by
      intro heq
      simp [heq, isBuiltin, Builtin.names] at huser
    exact ⟨g.apply r.image, g.substitute?_eq hgrounded.acyclic, hgrounded.ground g hg hneg hne⟩

/-- Prices of what is not sold out, with a refused rule for what is given away. -/
def Engine.shopCalls : List Engine.Call :=
  [.startUp,
    .addFact ⟨"size", [.atom "box", .float 1.5]⟩,
    .addFact ⟨"size", [.atom "bag", .float 3.5]⟩,
    .addFact ⟨"size", [.atom "jar", .float 0.5]⟩,
    .addFact ⟨"sold", [.atom "jar"]⟩,
    .addRule ⟨⟨"price", [.var "X", .var "Y"]⟩,
      [⟨"size", [.var "X", .var "N"], false⟩, ⟨"<", [.var "N", .float 2.5], false⟩,
        ⟨"sold", [.var "X"], true⟩,
        ⟨"is", [.var "Y", .compound "+" [.var "N", .float 1.25]], false⟩]⟩,
    .addRule ⟨⟨"price", [.var "X", .int 0]⟩, [⟨"sold", [.var "X"], true⟩]⟩]

/-- The equation of the query leaves `Q` with a variable; the price does not. -/
def Engine.shopQuery : List Goal :=
  [⟨"=", [.var "Q", .compound "of" [.var "Z"]], false⟩, ⟨"price", [.var "B", .var "P"], false⟩]

theorem Evaluator.isGround_of_mem_solve_shop :
    let ev := ((Engine.ofSettings Engine.strictSettings).calls Engine.shopCalls).evaluator
    ∃ results, (ev.solve Engine.shopQuery ∅).1 = .ok results ∧ results.length = 1 ∧
      ∀ r ∈ results, ∃ g, Goal.substitute? ⟨"price", [.var "B", .var "P"], false⟩ r = some g ∧
        g.isGround = true := by
  intro ev
  have hfloor : ev.options.limit.floor = some 1000 := by decide +kernel
  obtain ⟨results, hresults, hlength⟩ : ∃ results, (ev.solve Engine.shopQuery ∅).1 = .ok results ∧
      results.length = 1 :=
    exists_ok_of_length (by rw [Search.solve_eq_walk hfloor]; decide +kernel)
  refine ⟨results, hresults, hlength, fun r hr => ?_⟩
  exact isGround_of_mem_solve
    (s := Engine.strictSettings) rfl Engine.shopCalls rfl (by decide +kernel)
    (by decide +kernel) hresults hr (by simp [Engine.shopQuery]) rfl rfl

end Clausal
