import Clausal.Proofs.Search.Alike
import Clausal.Proofs.Search.Faults
import Mathlib.Algebra.Group.Int.Defs

/-!
# Goals that are ready

A negated goal, a comparison or an evaluation is ready when the arguments from which it takes its
answer are ground under the bindings. Every name that ground arguments reach is bound, so bindings
that extend the given ones are alike on these names. A goal that is ready therefore stays ready, and
its answer is the same at any later time. For a negated goal this compares two searches, and they
may meet names of clause copies on their way: these have to be unbound at the later time as well.
-/

namespace Clausal

namespace Goal

/-- The arguments that have to be ground before the goal is run. -/
def inputs (g : Goal) : List Term :=
  if g.negated || (Comparison.ofSymbol? g.predicate).isSome && g.arity == Builtin.arity then g.args
  else
    match g.predicate == "is", g.args with
    | true, [_, e] => [e]
    | _, _ => []

variable {g : Goal} {l r : Term}

theorem inputs_of_negated (h : g.negated = true) : g.inputs = g.args := by
  rw [inputs, h, Bool.true_or, if_pos rfl]

theorem inputs_of_comparison {cmp : Comparison} (h : Comparison.ofSymbol? g.predicate = some cmp)
    (hargs : g.args = [l, r]) : g.inputs = [l, r] := by
  simp [inputs, h, arity, hargs, Builtin.arity]

theorem inputs_of_is (hneg : g.negated = false) (h : g.predicate = "is") (hargs : g.args = [l, r]) :
    g.inputs = [r] := by
  simp [inputs, hneg, h, hargs, Comparison.ofSymbol?]

end Goal

namespace Bindings

/-- The names that terms reach through the bindings. -/
def Reaches (b : Bindings) (ts : List Term) (x : String) : Prop :=
  ∃ t ∈ ts, ∃ y ∈ t.vars, Relation.ReflTransGen b.Leads y x

theorem alike_of_ground {b b' : Bindings} (hb : b.Acyclic) (hb' : b'.Acyclic) (hext : b'.Extends b)
    {ts : List Term} (hground : ∀ t ∈ ts, (t.apply b.image).isGround = true) {New : String → Prop}
    (hnew : ∀ x, New x → b'.get? x = none) : b.Alike (fun x => b.Reaches ts x ∨ New x) b' := by
  -- An unbound name that is reached would be a variable of a ground instance.
  have hbound : ∀ x, b.Reaches ts x → b.get? x ≠ none := by
    rintro x ⟨t, ht, y, hy, hreach⟩ hfree
    have hvar := Term.mem_vars_apply.mpr ⟨y, hy, hb.mem_vars_image.mpr ⟨hfree, hreach⟩⟩
    exact Term.isGround_iff.mp (hground t ht) x hvar
  have hfree : ∀ x, New x → b.get? x = none := by
    intro x hx
    cases hget : b.get? x with
    | none => rfl
    | some t => exact ((hnew x hx).symm.trans (hext x t hget)).symm
  refine ⟨hb, hb', ?_, ?_⟩
  · rintro x (hreach | hx)
    · obtain ⟨t, ht⟩ := Option.ne_none_iff_exists'.mp (hbound x hreach)
      rw [ht, hext x t ht]
    · rw [hfree x hx, hnew x hx]
  · rintro x u (⟨t, ht, y, hy, hreach⟩ | hx) hu z hz
    · exact .inl ⟨t, ht, y, hy, hreach.tail ⟨u, hu, hz⟩⟩
    · simp [hfree x hx] at hu

end Bindings

namespace Search

variable {b b' : Bindings} {g : Goal}

theorem isReady?_iff (hb : b.Acyclic) (g : Goal) :
    isReady? g b = some true ↔ ∀ t ∈ g.inputs, (t.apply b.image).isGround = true := by
  rw [isReady?, Goal.inputs]
  split
  · simp [hb.substituteAll?_eq, Term.isGroundAll_eq]
  · cases g.predicate == "is" with
    | false => simp
    | true => rcases g.args with _ | ⟨a, _ | ⟨e, _ | ⟨c, args⟩⟩⟩ <;> simp [hb.substitute?_eq]

/-- Two searches for a proof find one, find none, go too deep or meet a term without a text, both of
them. Without a limit they may both have no end. -/
inductive SameAnswer (limit : Limit) : Report → Report → Prop
  | proof {r r' : Bindings} {rs rs' : List Bindings} {p p' : Progress} :
      SameAnswer limit ⟨.ok (r :: rs), p⟩ ⟨.ok (r' :: rs'), p'⟩
  | none {p p' : Progress} : SameAnswer limit ⟨.ok [], p⟩ ⟨.ok [], p'⟩
  | tooDeep {depth : Nat} {p p' : Progress} :
      SameAnswer limit ⟨.error (.depthExceeded depth limit), p⟩
      ⟨.error (.depthExceeded depth limit), p'⟩
  | unwritable {p p' : Progress} : SameAnswer limit ⟨.error .unwritable, p⟩ ⟨.error .unwritable, p'⟩
  | divergent {p p' : Progress} (hlimit : limit.floor = .none) :
      SameAnswer limit ⟨.error .divergent, p⟩ ⟨.error .divergent, p'⟩

theorem SameAnswer.exists_ok {limit : Limit} {r r' : Report} (h : SameAnswer limit r r')
    {rs : List Bindings} (hrs : r.outcome = .ok rs) :
    ∃ rs', r'.outcome = .ok rs' ∧ (rs' = [] ↔ rs = []) := by
  cases h with
  | proof =>
      obtain rfl := Except.ok.inj hrs
      exact ⟨_, rfl, by simp⟩
  | none =>
      obtain rfl := Except.ok.inj hrs
      exact ⟨[], rfl, Iff.rfl⟩
  | tooDeep | unwritable | divergent => simp at hrs

section Ready

variable (hb : b.Acyclic) (hb' : b'.Acyclic) (hext : b'.Extends b)
  (hready : isReady? g b = some true)

include hb hb' hext hready

theorem alike_inputs (New : String → Prop) (hnew : ∀ x, New x → b'.get? x = none) :
    b.Alike (fun x => b.Reaches g.inputs x ∨ New x) b' ∧
      ∀ t ∈ g.inputs, t.Within fun x => b.Reaches g.inputs x ∨ New x :=
  ⟨Bindings.alike_of_ground hb hb' hext ((isReady?_iff hb g).mp hready) hnew,
    fun t ht x hx => .inl ⟨t, ht, x, hx, .refl⟩⟩

theorem isReady?_of_extends : isReady? g b' = some true := by
  obtain ⟨halike, hwithin⟩ := alike_inputs hb hb' hext hready (fun _ => False) (by simp)
  rw [isReady?_iff hb']
  intro t ht
  rw [halike.apply_image_eq (hwithin t ht)]
  exact (isReady?_iff hb g).mp hready t ht

theorem solve_comparison_of_extends {cmp : Comparison}
    (hcmp : Comparison.ofSymbol? g.predicate = some cmp) (u : Unifier) :
    Builtin.solve u g b = .ok (some b) ∧ Builtin.solve u g b' = .ok (some b') ∨
      Builtin.solve u g b = .ok none ∧ Builtin.solve u g b' = .ok none := by
  have hne : g.predicate ≠ "=" := by
    intro heq
    simp [heq, Comparison.ofSymbol?] at hcmp
  by_cases htwo : g.args.length = 2
  · obtain ⟨l, r, hargs⟩ := List.length_eq_two.mp htwo
    obtain ⟨halike, hwithin⟩ := alike_inputs hb hb' hext hready (fun _ => False) (by simp)
    rw [Goal.inputs_of_comparison hcmp hargs] at halike hwithin
    have hl := (halike.resolve_eq (hwithin l (by simp))).1
    have hr := (halike.resolve_eq (hwithin r (by simp))).1
    simp only [Builtin.solve, hargs, Builtin.solveResolved, if_neg hne, hcmp, hl, hr]
    rcases (b.resolve l).number? with _ | m
    · exact .inr ⟨rfl, rfl⟩
    · rcases (b.resolve r).number? with _ | n
      · exact .inr ⟨rfl, rfl⟩
      · by_cases hholds : cmp.holds m n = true
        · simp [hholds]
        · simp [hholds]
  · have hnone : ∀ c, Builtin.solve u g c = .ok none := by
      intro c
      rw [Builtin.solve]
      split
      · next hargs => simp [hargs] at htwo
      · rfl
    exact .inr ⟨hnone b, hnone b'⟩

theorem evaluate_of_isReady (hneg : g.negated = false) (his : g.predicate = "is") {l e : Term}
    (hargs : g.args = [l, e]) : b'.evaluate e = b.evaluate e := by
  obtain ⟨halike, hwithin⟩ := alike_inputs hb hb' hext hready (fun _ => False) (by simp)
  rw [Goal.inputs_of_is hneg his hargs] at halike hwithin
  exact halike.evaluate_eq (hwithin e (by simp))

theorem sameAnswer_of_negated {t : Task} (hu : t.options.unifier.occursCheck = true)
    (hkb : t.kb.All Term.HashFree) (hneg : g.negated = true) {depth : Nat} {p p' : Progress}
    (hp : p'.applications = p.applications)
    (hfree : ∀ k, t.options.Issues depth p k → ∀ v, b'.get? (suffixed (toString k) v) = none)
    (strategy : Strategy) :
    SameAnswer t.options.limit (search t strategy ⟨[g.positive], b, depth⟩ p)
      (search t strategy ⟨[g.positive], b', depth⟩ p') := by
  -- The searches use the names that the goal reaches and those of the copies that they make.
  let New : String → Prop :=
    fun x => ∃ k v, t.options.Issues depth p k ∧ x = suffixed (toString k) v
  obtain ⟨halike, hwithin⟩ := alike_inputs hb hb' hext hready New <| by
    rintro x ⟨k, v, hk, rfl⟩
    exact hfree k hk v
  rw [Goal.inputs_of_negated hneg] at halike hwithin
  have hstates : State.Alike _ ⟨[g.positive], b, depth⟩ ⟨[g.positive], b', depth⟩ :=
    ⟨rfl, fun g' hg' => by obtain rfl := List.mem_singleton.mp hg'; exact hwithin, halike, rfl⟩
  obtain ⟨hends, _⟩ :=
    search_of_alike hu hkb (fun k hk v => .inr ⟨k, v, hk, rfl⟩) hstates hp strategy
  have hfault := @fault_of_search t strategy ⟨[g.positive], b, depth⟩ p
  generalize search t strategy ⟨[g.positive], b, depth⟩ p = report,
    search t strategy ⟨[g.positive], b', depth⟩ p' = report' at hends hfault
  obtain ⟨outcome, _⟩ := report
  obtain ⟨outcome', _⟩ := report'
  rcases hends with ⟨e, rfl, rfl⟩ | ⟨rs, rs', rfl, rfl, hlength⟩
  · rcases hfault rfl with ⟨_, _, rfl⟩ | ⟨hnone, rfl⟩ | rfl | ⟨_, hcyclic⟩
    · exact .tooDeep
    · exact .divergent hnone
    · exact .unwritable
    · exact (hcyclic ⟨hu, hb⟩).elim
  · cases rs with
    | nil =>
        obtain rfl := List.length_eq_zero_iff.mp hlength.symm
        exact .none
    | cons r rs =>
        cases rs' with
        | nil => simp at hlength
        | cons r' rs' => exact .proof

end Ready

/-- A goal that is ready is ready under all bindings that extend the given ones, and its answer does
not change. A comparison holds under both or under none; an expression has the same value or the
same fault; the searches for a proof of a negated goal give the same answer if they have copied as
many clauses and the later bindings hold no name that a copy can still get. -/
theorem answer_of_isReady {kb : KnowledgeBase} {o : Options} (hu : o.unifier.occursCheck = true)
    (hkb : kb.All Term.HashFree) {b b' : Bindings} (hb : b.Acyclic) (hb' : b'.Acyclic)
    (hext : b'.Extends b) {g : Goal} (hready : isReady? g b = some true) :
    isReady? g b' = some true ∧
    (g.negated = false → ∀ cmp, Comparison.ofSymbol? g.predicate = some cmp →
      Builtin.solve o.unifier g b = .ok (some b) ∧ Builtin.solve o.unifier g b' = .ok (some b') ∨
        Builtin.solve o.unifier g b = .ok none ∧ Builtin.solve o.unifier g b' = .ok none) ∧
    (g.negated = false → g.predicate = "is" → ∀ l e, g.args = [l, e] →
      b'.evaluate e = b.evaluate e) ∧
    (g.negated = true → ∀ depth p p', p'.applications = p.applications →
      (∀ k, o.Issues depth p k → ∀ v, b'.get? (suffixed (toString k) v) = none) →
      SameAnswer o.limit (search ⟨kb, o, some 1⟩ o.strategy ⟨[g.positive], b, depth⟩ p)
        (search ⟨kb, o, some 1⟩ o.strategy ⟨[g.positive], b', depth⟩ p')) := by
  refine ⟨isReady?_of_extends hb hb' hext hready, ?_, ?_, ?_⟩
  · intro _ cmp hcmp
    exact solve_comparison_of_extends hb hb' hext hready hcmp o.unifier
  · intro hneg his l e hargs
    exact evaluate_of_isReady hb hb' hext hready hneg his hargs
  · intro hneg depth p p' hp hfree
    exact sameAnswer_of_negated hb hb' hext hready
      (t := ⟨kb, o, some 1⟩) hu hkb hneg hp hfree o.strategy

/-- What is lent has not been returned by its holder. -/
def lending : KnowledgeBase :=
  (((KnowledgeBase.empty.addFact ⟨"holds", [.atom "ann", .atom "atlas"]⟩).addFact
      ⟨"holds", [.atom "bob", .atom "maps"]⟩).addFact ⟨"returned",
      [.atom "bob", .atom "maps"]⟩).addRule
    ⟨⟨"lent", [.var "B"]⟩, [⟨"holds", [.var "P", .var "B"], false⟩,
      ⟨"returned", [.var "P", .var "B"], true⟩]⟩

def early : Bindings :=
  (((∅ : Bindings).insert "N" (.int 3)).insert "C" (.atom "maps")).insert "B" (.var "C")

/-- The name of the first copy is taken. -/
def late : Bindings := (early.insert "A" (.var "P#1")).insert "P#1" (.atom "bob")

theorem answer_of_isReady_lending :
    Builtin.solve {} ⟨"<", [.var "N", .int 4], false⟩ late = .ok (some late) ∧
    late.evaluate (.compound "+" [.var "N", .int 1]) = .ok (.int 4) ∧
    (search ⟨lending, {}, some 1⟩ .constrained ⟨[⟨"lent", [.var "B"], false⟩], late, 2⟩
      { applications := 1 }).outcome = .ok [] ∧
    ∃ rs, rs ≠ [] ∧ (search ⟨lending, {}, some 1⟩ .constrained
      ⟨[⟨"lent", [.atom "atlas"], false⟩], late, 2⟩ { applications := 1 }).outcome = .ok rs := by
  have hearly : early.Acyclic :=
    ((Bindings.acyclic_empty.insert_of_occurs? rfl rfl).insert_of_occurs? rfl rfl).insert_of_occurs?
      rfl rfl
  have hlate : late.Acyclic := (hearly.insert_of_occurs? rfl rfl).insert_of_occurs? rfl rfl
  have hext : late.Extends early :=
    (Bindings.extends_insert rfl _).trans (Bindings.extends_insert rfl _)
  have hfree : ∀ k, 1 < k → ∀ v, late.get? (suffixed (toString k) v) = none := by
    have hkeys : ∀ entry ∈ late.entries, HashFree entry.1 ∨
        entry.1 = suffixed (toString 1) "P" := by
      decide
    intro k hk v
    cases hv : late.get? (suffixed (toString k) v) with
    | none => rfl
    | some t =>
        rcases hkeys _ (Bindings.mem_entries_of_get? hv) with hname | hname
        · exact (not_hashFree_suffixed _ v hname).elim
        · have hone : 1 = k := toString_nat_injective
            (eq_of_suffixed_eq (hashFree_toString 1) (by decide) hname.symm)
          omega
  have hanswer :=
    fun g => @answer_of_isReady lending {} rfl (by decide) early late hearly hlate hext g
  refine ⟨?_, ?_, ?_, ?_⟩
  · rcases (hanswer ⟨"<", [.var "N", .int 4], false⟩ rfl).2.1 rfl .lt rfl with ⟨_, h⟩ | ⟨h, _⟩
    · exact h
    · have hholds : Builtin.solve {} ⟨"<", [.var "N", .int 4], false⟩ early = .ok (some early) :=
        rfl
      simp [hholds] at h
  · exact (hanswer ⟨"is", [.var "M", .compound "+" [.var "N", .int 1]], false⟩ rfl).2.2.1
      rfl rfl _ _ rfl
  · have hsame := (hanswer ⟨"lent", [.var "B"], true⟩ rfl).2.2.2 rfl 2 { applications := 1 }
      { applications := 1 } rfl hfree
    obtain ⟨rs, hrs, hlength⟩ : ∃ rs, (search ⟨lending, {}, some 1⟩ .constrained
        ⟨[⟨"lent", [.var "B"], false⟩], early, 2⟩ { applications := 1 }).outcome = .ok rs ∧
        rs.length = 0 :=
      Evaluator.exists_ok_of_length (by rw [search_eq_walk rfl]; decide +kernel)
    obtain ⟨rs', hrs', hnil⟩ := hsame.exists_ok hrs
    rw [hnil.mpr (List.length_eq_zero_iff.mp hlength)] at hrs'
    exact hrs'
  · have hsame := (hanswer ⟨"lent", [.atom "atlas"], true⟩ rfl).2.2.2 rfl 2 { applications := 1 }
      { applications := 1 } rfl hfree
    obtain ⟨rs, hrs, hlength⟩ : ∃ rs, (search ⟨lending, {}, some 1⟩ .constrained
        ⟨[⟨"lent", [.atom "atlas"], false⟩], early, 2⟩ { applications := 1 }).outcome = .ok rs ∧
          rs.length = 1 :=
      Evaluator.exists_ok_of_length (by rw [search_eq_walk rfl]; decide +kernel)
    obtain ⟨rs', hrs', hnil⟩ := hsame.exists_ok hrs
    refine ⟨rs', fun h => ?_, hrs'⟩
    simp [hnil.mp h] at hlength

/-- A product may be too long to be shown, and the search shows it when it binds a
variable to it. -/
theorem search_unwritable :
    let product := Term.compound "*" [.int (10 ^ 4299), .int 10]
    let kb := KnowledgeBase.empty.addRule ⟨⟨"p", []⟩, [⟨"is", [.var "X", product], false⟩]⟩
    isReady? ⟨"p", [], true⟩ ∅ = some true ∧
      (search ⟨kb, {}, some 1⟩ .constrained ⟨[⟨"p", [], false⟩], ∅, 1⟩ {}).outcome =
        .error .unwritable := by
  intro product kb
  refine ⟨rfl, ?_⟩
  rw [search_eq_walk rfl]
  exact eq_unwritable (by decide +kernel)

end Search

end Clausal
