import Clausal.Proofs.Search.Derivation
import Clausal.Proofs.Search.Recursion
import Clausal.Proofs.Search.Selection

/-!
# Resolution is sound

If the goals of a successor state are derivable under bindings that extend its own, so are the goals
of the state. Read from a result back to the query, every goal of the query is derivable under the
bindings of the result, up to close floating-point leaves.
-/

namespace Clausal

/-- No rule has a negated goal in its body. -/
def KnowledgeBase.IsPositive (kb : KnowledgeBase) : Prop :=
  ∀ r ∈ kb.rules.all, ∀ g ∈ r.body, g.negated = false

instance (kb : KnowledgeBase) : Decidable kb.IsPositive :=
  inferInstanceAs (Decidable (∀ r ∈ kb.rules.all, ∀ g ∈ r.body, g.negated = false))

theorem KnowledgeBase.IsPositive.body {kb : KnowledgeBase} (hkb : kb.IsPositive) (g : Goal)
    (_ : g.negated = false) : ∀ r ∈ kb.rulesFor g.predicate, ∀ g' ∈ r.body, g'.negated = false :=
  fun r hr => hkb r (mem_rules_of_mem_rulesFor hr)

namespace Builtin

variable {u : Unifier} {b c : Bindings}

theorem number?_apply {t : Term} {n : Number} (h : t.number? = some n) (θ : String → Term) :
    (t.apply θ).number? = some n := by
  cases t with
  | int _ | float _ => exact h
  | _ => simp [Term.number?] at h

theorem apply_toTerm (n : Number) (θ : String → Term) : n.toTerm.apply θ = n.toTerm := by
  cases n <;> rfl

theorem eq_of_valueTerm? {t v : Term} (h : valueTerm? t b = .ok (some v)) :
    ∃ n, b.evaluate t = .ok n ∧ v = n.normalize.toTerm := by
  rw [valueTerm?] at h
  split at h
  · next n hn => exact ⟨n, hn, by simpa using h.symm⟩
  · simp at h
  · simp at h

/-- What the built-in predicates do when they succeed. -/
theorem solve_eq_some {g : Goal} (h : solve u g b = .ok (some c)) :
    ∃ l r, g.args = [l, r] ∧
      (g.predicate = "=" ∧ u.unify (b.resolve l) (b.resolve r) b = .ok (some c) ∨
        (∃ cmp m n, Comparison.ofSymbol? g.predicate = some cmp ∧ (b.resolve l).number? = some m ∧
          (b.resolve r).number? = some n ∧ cmp.holds m n = true ∧ c = b) ∨
        g.predicate = "is" ∧ ∃ n, b.evaluate (b.resolve r) = .ok n ∧
          u.unify (b.resolve l) n.normalize.toTerm b = .ok (some c)) := by
  rw [solve] at h
  split at h
  · next l r hargs =>
    refine ⟨l, r, hargs, ?_⟩
    rw [solveResolved] at h
    split at h
    · next hp => exact .inl ⟨hp, h⟩
    · split at h
      · next cmp hcmp =>
        split at h
        · next m n hm hn =>
          split at h
          · next hholds =>
              exact .inr (.inl ⟨cmp, m, n, hcmp, hm, hn, hholds, by simpa using h.symm⟩)
          · simp at h
        · simp at h
      · split at h
        · next hp =>
          split at h
          · simp at h
          · simp at h
          · next v hv =>
            obtain ⟨n, hn, rfl⟩ := eq_of_valueTerm? hv
            exact .inr (.inr ⟨hp, n, hn, h⟩)
        · simp at h
  · simp at h

/-- A built-in goal that is solved extends the bindings, and it is derivable under
all later ones. -/
theorem solve_sound (kb : KnowledgeBase) {g : Goal} (hu : u.occursCheck = true) (hb : b.Acyclic)
    (hneg : g.negated = false) (h : solve u g b = .ok (some c)) :
    c.Extends b ∧ c.Acyclic ∧ ∀ d : Bindings, d.Acyclic → d.Extends c →
      Derivable kb Term.Alike (g.apply d.image) := by
  obtain ⟨p, args, negated⟩ := g
  obtain rfl : negated = false := hneg
  obtain ⟨l, r, hargs, hcases⟩ := solve_eq_some h
  obtain rfl : args = [l, r] := hargs
  have hresolve : ∀ {d : Bindings}, d.Acyclic → d.Extends b → ∀ t : Term,
      (b.resolve t).apply d.image = t.apply d.image :=
    fun hd hdb t => hb.apply_resolve (hd.solvedBy_image.of_extends hdb) t
  rcases hcases with ⟨hp, hunify⟩ | ⟨cmp, m, n, hcmp, hm, hn, hholds, rfl⟩ | ⟨hp, n, hn, hunify⟩
  · obtain rfl : p = "=" := hp
    obtain ⟨hext, hc, halike⟩ := (Unifier.moves_of_unify hu hb hunify).sound hb
    refine ⟨hext, hc, fun d hd hdc => .equal ?_⟩
    have hlr := halike d hd hdc _ _ List.mem_cons_self
    rwa [hresolve hd (hdc.trans hext), hresolve hd (hdc.trans hext)] at hlr
  · refine ⟨.refl _, hb, fun d hd hdb => .compare hcmp ?_ ?_ hholds⟩
    · exact hresolve hd hdb l ▸ number?_apply hm d.image
    · exact hresolve hd hdb r ▸ number?_apply hn d.image
  · obtain rfl : p = "is" := hp
    obtain ⟨hext, hc, halike⟩ := (Unifier.moves_of_unify hu hb hunify).sound hb
    refine ⟨hext, hc, fun d hd hdc => .value (n := n) ?_ ?_⟩
    · have hvalue := hb.evaluate_of_extends hd (hdc.trans hext) hn
      rwa [hresolve hd (hdc.trans hext)] at hvalue
    · have hl := halike d hd hdc _ _ List.mem_cons_self
      rwa [hresolve hd (hdc.trans hext), apply_toTerm] at hl

end Builtin

namespace Search

variable {t : Task} {strategy : Strategy} {s s' : State} {p : Progress} {r : Bindings}

/-- The bindings of a successor come from those of the selection by unification. -/
theorem Successor.exists_moves (h : Successor t strategy s p s')
    (hu : t.options.unifier.occursCheck = true) (hs : s.bindings.Acyclic) :
    ∃ sel ps, Selects t strategy s sel ∧ Unify.Moves true ⟨ps, sel.bindings⟩ ⟨[], s'.bindings⟩ := by
  cases h with
  | negated hsel _ => exact ⟨_, _, hsel, .refl⟩
  | builtin hsel _ _ hsolve =>
      have hb := (hsel.sound hu hs).2
      obtain ⟨l, r, _, ⟨_, hunify⟩ | ⟨_, _, _, _, _, _, _, rfl⟩ | ⟨_, n, _, hunify⟩⟩ :=
        Builtin.solve_eq_some hsolve
      · exact ⟨_, _, hsel, Unifier.moves_of_unify hu hb hunify⟩
      · exact ⟨_, _, hsel, .refl⟩
      · exact ⟨_, _, hsel, Unifier.moves_of_unify hu hb hunify⟩
  | fact hsel _ _ _ hunify | rule hsel _ _ _ hunify =>
      exact ⟨_, _, hsel, Unifier.moves_of_unifyArgs hu (hsel.sound hu hs).2 hunify⟩

theorem Successor.acyclic (h : Successor t strategy s p s')
    (hu : t.options.unifier.occursCheck = true) (hs : s.bindings.Acyclic) :
    s'.bindings.Acyclic := by
  obtain ⟨sel, ps, hsel, hmoves⟩ := h.exists_moves hu hs
  exact hmoves.acyclic (hsel.sound hu hs).2

/-- What the soundness proof needs of a state. -/
structure State.Sound (s : State) : Prop where
  acyclic : s.bindings.Acyclic
  positive : ∀ g ∈ s.goals, g.negated = false

/-- Bindings that answer the goals of a state. -/
structure State.AnsweredBy (kb : KnowledgeBase) (s : State) (r : Bindings) : Prop where
  acyclic : r.Acyclic
  extends_bindings : r.Extends s.bindings
  derivable : ∀ g ∈ s.goals, Derivable kb Term.Alike (g.apply r.image)

theorem negated_of_mem_copyRule {mode : RenamingMode} {depth : Nat} {rule : Rule} {g : Goal}
    (hrule : ∀ g ∈ rule.body, g.negated = false) (hg : g ∈ (copyRule mode depth rule p).1.body) :
    g.negated = false := by
  obtain ⟨g', hg', rfl⟩ := List.mem_map.mp hg
  exact hrule g' hg'

theorem State.Sound.successor (hu : t.options.unifier.occursCheck = true) (hkb : t.kb.IsPositive)
    (hs : s.Sound) (h : Successor t strategy s p s') : s'.Sound := by
  have hrest : ∀ {sel : Selection}, Selects t strategy s sel → ∀ g ∈ sel.rest, g.negated = false :=
    fun hsel g hg => hs.positive g (hsel.mem_of_mem_rest hg)
  cases h with
  | negated hsel _ => exact ⟨(hsel.sound hu hs.acyclic).2, hrest hsel⟩
  | builtin hsel hneg _ hsolve =>
      have hsound := Builtin.solve_sound t.kb hu (hsel.sound hu hs.acyclic).2 hneg hsolve
      exact ⟨hsound.2.1, hrest hsel⟩
  | fact hsel _ _ _ hunify =>
      have hb := (hsel.sound hu hs.acyclic).2
      exact ⟨(Unifier.moves_of_unifyArgs hu hb hunify).acyclic hb, hrest hsel⟩
  | rule hsel _ _ hr hunify =>
      have hb := (hsel.sound hu hs.acyclic).2
      refine ⟨(Unifier.moves_of_unifyArgs hu hb hunify).acyclic hb, fun g hg => ?_⟩
      rcases List.mem_append.mp hg with hbody | hg
      · exact negated_of_mem_copyRule (hkb _ (KnowledgeBase.mem_rules_of_mem_rulesFor hr)) hbody
      · exact hrest hsel g hg

/-- An answer to a successor answers the state. -/
theorem State.AnsweredBy.of_successor (hu : t.options.unifier.occursCheck = true) (hs : s.Sound)
    (h : Successor t strategy s p s') (hr : s'.AnsweredBy t.kb r) : s.AnsweredBy t.kb r := by
  -- It is enough to derive the selected goal: the others are goals of the successor as well.
  have hanswer : ∀ {sel : Selection} {b : Bindings}, Selects t strategy s sel →
      b.Extends sel.bindings → r.Extends b → (∀ g ∈ sel.rest, g ∈ s'.goals) →
      Derivable t.kb Term.Alike (sel.goal.apply r.image) → s.AnsweredBy t.kb r := by
    intro sel b hsel hb hrb hrest hgoal
    refine ⟨hr.acyclic, (hrb.trans hb).trans (hsel.sound hu hs.acyclic).1, fun g hg => ?_⟩
    rcases hsel.mem_goals_iff.mp hg with rfl | hg
    · exact hgoal
    · exact hr.derivable g (hrest g hg)
  cases h with
  | negated hsel hneg =>
      have hpos := hs.positive _ hsel.goal_mem
      simp [hpos] at hneg
  | builtin hsel hneg _ hsolve =>
      obtain ⟨hext, _, hgoal⟩ :=
        Builtin.solve_sound t.kb hu (hsel.sound hu hs.acyclic).2 hneg hsolve
      exact hanswer hsel hext hr.extends_bindings (fun g hg => hg)
        (hgoal r hr.acyclic hr.extends_bindings)
  | @fact sel f b hsel hneg hbuiltin hf hunify =>
      have hb := (hsel.sound hu hs.acyclic).2
      have hargs := Unifier.forall₂_alike_of_unifyArgs hu hb hunify hr.acyclic hr.extends_bindings
      obtain ⟨σ, hσ⟩ := exists_apply_copyFact t.options.mode s.depth f p r.image
      refine hanswer hsel (Unifier.moves_of_unifyArgs hu hb hunify |>.extends_bindings hb)
        hr.extends_bindings (fun g hg => hg) ?_
      rw [Goal.apply, hneg]
      exact .fact hbuiltin hf (hσ ▸ hargs)
  | @rule sel rule b hsel hneg hbuiltin hrule hunify =>
      have hb := (hsel.sound hu hs.acyclic).2
      have hargs := Unifier.forall₂_alike_of_unifyArgs hu hb hunify hr.acyclic hr.extends_bindings
      obtain ⟨σ, hσ, hbody⟩ := exists_apply_copyRule t.options.mode s.depth rule p r.image
      refine hanswer hsel (Unifier.moves_of_unifyArgs hu hb hunify |>.extends_bindings hb)
        hr.extends_bindings (fun g hg => List.mem_append_right _ hg) ?_
      rw [Goal.apply, hneg]
      refine .rule hbuiltin hrule (hσ ▸ hargs) fun g hg => ?_
      have hmem : g.apply σ ∈ (copyRule t.options.mode s.depth rule p).1.body.map
          (Goal.apply r.image) := hbody ▸ List.mem_map_of_mem hg
      obtain ⟨g', hg', heq⟩ := List.mem_map.mp hmem
      rw [← heq]
      exact hr.derivable g' (List.mem_append_left _ hg')

/-- All results of a walk answer the goals it starts with. -/
theorem yields_answers (strategy : Strategy) (hu : t.options.unifier.occursCheck = true)
    (hkb : t.kb.IsPositive) (n : Nat) (wanted : Option Nat) (f : Found) (hs : s.Sound) :
    (walk t n strategy wanted s f).Yields f.results (s.AnsweredBy t.kb) := by
  refine yields_walk (P := State.Sound) (Q := State.AnsweredBy t.kb) ?_ ?_ ?_ n wanted s f hs
  · intro s p s' hs hsucc
    exact hs.successor hu hkb hsucc
  · intro s hs hgoals
    exact ⟨hs.acyclic, .refl _, fun g hg => by simp [hgoals] at hg⟩
  · intro s p s' r hs hsucc hr
    exact .of_successor hu hs hsucc hr

end Search

/-- Under the bindings of any result, every goal of a query without negation is derivable, up to
close floating-point leaves. -/
theorem Evaluator.derivable_of_mem_solve {ev : Evaluator}
    (hu : ev.options.unifier.occursCheck = true) (hkb : ev.kb.IsPositive) {goals : List Goal}
    (hgoals : ∀ g ∈ goals, g.negated = false) {results : List Bindings}
    (h : (ev.solve goals ∅).1 = .ok results) {r : Bindings} (hr : r ∈ results) {g : Goal}
    (hg : g ∈ goals) : ∃ g', g.substitute? r = some g' ∧ Derivable ev.kb Term.Alike g' := by
  obtain ⟨n, f, hwalk, rfl⟩ := Search.walk_of_solve h
  have hstart : Search.State.Sound ⟨goals, ∅, 0⟩ := ⟨Bindings.acyclic_empty, hgoals⟩
  have hyields :=
    Search.yields_answers (t := ⟨ev.kb, ev.options, none⟩) ev.options.strategy hu hkb n
    none ⟨[], {}⟩ hstart
  rw [hwalk] at hyields
  rcases hyields r (List.mem_reverse.mp hr) with hnil | hanswer
  · simp at hnil
  · exact ⟨g.apply r.image, g.substitute?_eq hanswer.acyclic, hanswer.derivable g hg⟩

/-- A rule with a comparison and an evaluation in its body. -/
def Evaluator.pricing : Evaluator :=
  { kb := (KnowledgeBase.empty.addFact ⟨"size", [.atom "box", .float 1.5]⟩).addRule
      ⟨⟨"price", [.var "X", .var "Y"]⟩,
        [⟨"size", [.var "X", .var "N"], false⟩, ⟨"<", [.var "N", .float 2.5], false⟩,
          ⟨"is", [.var "Y", .compound "+" [.var "N", .float 1.25]], false⟩]⟩
    options := { limit := .whole 6 } }

/-- A query of which the search selects the second goal first. -/
def Evaluator.pricingQuery : List Goal :=
  [⟨"price", [.atom "box", .var "P"], false⟩, ⟨"=", [.var "Q", .compound "paid" [.var "P"]], false⟩]

theorem Evaluator.derivable_of_mem_solve_pricing :
    ∃ r, (pricing.solve pricingQuery ∅).1 = .ok [r] ∧ r.get? "P" = some (.float 2.75) ∧
      ∀ g ∈ pricingQuery, ∃ g', g.substitute? r = some g' ∧
        Derivable pricing.kb Term.Alike g' := by
  have hsolve : ∃ r, (pricing.solve pricingQuery ∅).1 = .ok [r] ∧
      r.get? "P" = some (.float 2.75) := by
    rw [Search.solve_eq_walk rfl]
    exact ⟨_, rfl, rfl⟩
  obtain ⟨r, hr, hprice⟩ := hsolve
  refine ⟨r, hr, hprice, fun g hg => ?_⟩
  exact derivable_of_mem_solve rfl (by decide) (by decide) hr (by simp) hg

end Clausal
