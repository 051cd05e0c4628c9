import Clausal.Proofs.Search.Enumeration

/-!
# The strategies compared

Both strategies list their results by skeletons of proofs. The baseline strategy resolves a numeric
goal only when it has its arguments, so the constrained strategy is sure to find the skeletons that
the baseline strategy finds. In a definite program both find all skeletons. Results for one skeleton
are instances of each other, so they differ in the names of unbound variables only.
-/

namespace Clausal

/-! ## Variants -/

namespace Term

variable {σ τ : String → Term}

theorem eq_var_of_apply_eq {t : Term} (h : t.apply σ = t) {x : String} (hx : x ∈ t.vars) :
    σ x = .var x := by
  induction t with
  | var y =>
      obtain rfl : x = y := by simpa [vars] using hx
      exact h
  | atom _ | int _ | float _ | str _ => simp [vars] at hx
  | compound f args ih =>
      obtain ⟨a, ha, hxa⟩ := mem_vars_compound.mp hx
      rw [apply_compound, compound.injEq] at h
      have hall : args.map (apply σ) = args.map id := h.2.trans (List.map_id args).symm
      exact ih a ha (List.map_inj_left.mp hall a ha) hxa

/-- The name of a variable; other terms have the name that is given instead. -/
def nameOr (x : String) : Term → String
  | .var y => y
  | _ => x

/-- What can be undone on some terms renames their variables. -/
theorem exists_mapVars_of_apply {P : Term → Prop} (h : ∀ t, P t → (t.apply σ).apply τ = t) :
    ∃ f : String → String, ∀ t, P t → t.apply σ = t.mapVars f := by
  refine ⟨fun x => (σ x).nameOr x, fun t ht => ?_⟩
  rw [← apply_var_comp]
  refine apply_congr fun x hx => ?_
  have hundone : (σ x).apply τ = .var x := by
    have hself := h t ht
    rw [apply_apply] at hself
    exact eq_var_of_apply_eq hself hx
  cases hσ : σ x with
  | var y => rfl
  | compound f args => simp [hσ] at hundone
  | _ => simp [hσ] at hundone

end Term

/-- Two results give the variables of the goals the same values, up to the names of variables. -/
def Bindings.Variants (goals : List Goal) (r r' : Bindings) : Prop :=
  ∃ f f' : String → String, ∀ g ∈ goals, ∀ x ∈ g.vars, ∃ t t',
    r.substitute? (.var x) = some t ∧ r'.substitute? (.var x) = some t' ∧
      t' = t.mapVars f ∧ t = t'.mapVars f'

namespace Search

variable {kb : KnowledgeBase} {strategy strategy' : Strategy} {s : State} {Ts : List Skeleton}
  {r r' : Bindings}

/-- A result is an instance of every other one for the same skeletons. -/
theorem State.Answer.exists_instance (h : s.Answer kb strategy Ts r)
    (h' : s.Answer kb strategy' Ts r') :
    ∃ σ : String → Term, ∀ x, HashFree x → r'.image x = (r.image x).apply σ := by
  obtain ⟨Ds, hproved⟩ := h'.sound h'.acyclic.solvedBy_image
  obtain ⟨η, hη, hsame⟩ := h.general hproved
  refine ⟨η, fun x hx => ?_⟩
  rw [← hsame x hx]
  exact (h.acyclic.apply_image hη (.var x)).symm

theorem State.Answer.variants (h : s.Answer kb strategy Ts r) (h' : s.Answer kb strategy' Ts r')
    {goals : List Goal} (hgoals : ∀ g ∈ goals, g.All Term.HashFree) : r.Variants goals r' := by
  obtain ⟨σ, hσ⟩ := h.exists_instance h'
  obtain ⟨τ, hτ⟩ := h'.exists_instance h
  obtain ⟨f, hf⟩ := Term.exists_mapVars_of_apply (σ := σ) (τ := τ)
    (P := fun t => ∃ x, HashFree x ∧ t = r.image x) (by
      rintro _ ⟨x, hx, rfl⟩
      rw [← hσ x hx, ← hτ x hx])
  obtain ⟨f', hf'⟩ := Term.exists_mapVars_of_apply (σ := τ) (τ := σ)
    (P := fun t => ∃ x, HashFree x ∧ t = r'.image x) (by
      rintro _ ⟨x, hx, rfl⟩
      rw [← hτ x hx, ← hσ x hx])
  refine ⟨f, f', fun g hg x hx => ?_⟩
  obtain ⟨a, ha, hxa⟩ := Term.mem_varsAll.mp hx
  have hfree : HashFree x := hgoals g hg a ha x hxa
  refine ⟨r.image x, r'.image x, h.acyclic.substitute?_eq (.var x),
    h'.acyclic.substitute?_eq (.var x), ?_, ?_⟩
  · rw [hσ x hfree, hf _ ⟨x, hfree, rfl⟩]
  · rw [hτ x hfree, hf' _ ⟨x, hfree, rfl⟩]

/-- What one strategy finds from left to right, the other one expects. -/
theorem State.Answer.expects_constrained (h : s.Answer kb .baseline Ts r) :
    s.Expects kb .constrained Ts := by
  obtain ⟨Ds, hproved⟩ := h.sound h.acyclic.solvedBy_image
  exact ⟨⟨_, Ds, hproved⟩, by simp, fun _ => h.settles rfl⟩

theorem State.Answer.expects_baseline (h : s.Answer kb strategy Ts r) (hkb : kb.IsDefinite)
    (hs : ∀ g ∈ s.goals, g.IsDefinite) : s.Expects kb .baseline Ts := by
  obtain ⟨Ds, hproved⟩ := h.sound h.acyclic.solvedBy_image
  exact ⟨⟨_, Ds, hproved⟩, fun _ => ⟨hkb, hs⟩, by simp⟩

end Search

/-! ## Positions of results -/

section Matching

variable {α β γ : Type}

theorem mem_of_getElem?_map_fst {l : List (α × β)} {i : Fin (l.map Prod.snd).length} {a : α}
    (h : (l.map Prod.fst)[i.1]? = some a) : (a, (l.map Prod.snd).get i) ∈ l := by
  rw [List.getElem?_map, Option.map_eq_some_iff] at h
  obtain ⟨e, he, rfl⟩ := h
  obtain ⟨hi, rfl⟩ := List.getElem?_eq_some_iff.mp he
  simp

/-- Elements of two lists are matched by what they are listed under. -/
theorem exists_matching {l : List (α × β)} {l' : List (α × γ)} (hl : (l.map Prod.fst).Nodup)
    (h : ∀ a ∈ l.map Prod.fst, a ∈ l'.map Prod.fst) :
    ∃ φ : Fin (l.map Prod.snd).length → Fin (l'.map Prod.snd).length, Function.Injective φ ∧
      (∀ i, ∃ a, (a, (l.map Prod.snd).get i) ∈ l ∧ (a, (l'.map Prod.snd).get (φ i)) ∈ l') ∧
      ((l'.map Prod.fst).Nodup → (∀ a ∈ l'.map Prod.fst, a ∈ l.map Prod.fst) →
        Function.Surjective φ) := by
  have hposition : ∀ i : Fin (l.map Prod.snd).length, ∃ (j : Fin (l'.map Prod.snd).length) (a : α),
      (l.map Prod.fst)[i.1]? = some a ∧ (l'.map Prod.fst)[j.1]? = some a := by
    intro i
    have hi : i.1 < (l.map Prod.fst).length := by simpa using i.2
    obtain ⟨j, hj⟩ := List.mem_iff_getElem?.mp (h _ (List.getElem_mem hi))
    obtain ⟨hlt, _⟩ := List.getElem?_eq_some_iff.mp hj
    exact ⟨⟨j, by simpa using hlt⟩, _, List.getElem?_eq_getElem hi, hj⟩
  choose φ key hkey hkey' using hposition
  refine ⟨φ, ?_, ?_, ?_⟩
  · intro i i' heq
    have hsame : key i = key i' :=
      Option.some.inj ((hkey' i).symm.trans ((congrArg _ (congrArg Fin.val heq)).trans (hkey' i')))
    have hi : i.1 < (l.map Prod.fst).length := by simpa using i.2
    refine Fin.ext ((List.getElem?_inj hi hl).mp ?_)
    rw [hkey i, hkey i', hsame]
  · intro i
    exact ⟨key i, mem_of_getElem?_map_fst (hkey i), mem_of_getElem?_map_fst (hkey' i)⟩
  · intro hl' h' j
    have hj : j.1 < (l'.map Prod.fst).length := by simpa using j.2
    obtain ⟨i, hi⟩ := List.mem_iff_getElem?.mp (h' _ (List.getElem_mem hj))
    obtain ⟨hlt, _⟩ := List.getElem?_eq_some_iff.mp hi
    let i' : Fin (l.map Prod.snd).length := ⟨i, by simpa using hlt⟩
    refine ⟨i', (Fin.ext ((List.getElem?_inj hj hl').mp ?_)).symm⟩
    rw [hkey' i', List.getElem?_eq_getElem hj, ← hi]
    exact hkey i'

end Matching

namespace Evaluator

open Search

/-- The results of a search without negation are listed by skeletons. -/
theorem exists_found_of_solve {ev : Evaluator} (hu : ev.options.unifier.occursCheck = true)
    (hkb : ev.kb.All (Term.InProgram Term.IsExact)) (hpos : ev.kb.IsPositive)
    {goals : List Goal} (hgoals : ∀ g ∈ goals, g.All (Term.InProgram Term.IsExact))
    (hneg : ∀ g ∈ goals, g.negated = false) {results : List Bindings}
    (h : (ev.solve goals ∅).1 = .ok results) :
    ∃ found : List (List Skeleton × Bindings), results = found.map Prod.snd ∧
      (found.map Prod.fst).Nodup ∧
      (∀ e ∈ found, State.Answer ev.kb ev.options.strategy ⟨goals, ∅, 0⟩ e.1 e.2) ∧
      ∀ Ts, State.Expects ev.kb ev.options.strategy ⟨goals, ∅, 0⟩ Ts → Ts ∈ found.map Prod.fst := by
  obtain ⟨n, f, hwalk, rfl⟩ := walk_of_solve h
  have hapart : ∀ k, State.Apart Term.IsExact ∅ k ⟨goals, ∅, 0⟩ := by
    intro k
    refine ⟨⟨Bindings.acyclic_empty, .refl _, Bindings.keys_empty _, Bindings.values_empty _⟩, ?_⟩
    exact fun g hg a ha => (hgoals g hg a ha).inState k
  have hlists := lists_walk (t := ⟨ev.kb, ev.options, none⟩) (f := ⟨[], {}⟩) hu hkb hpos n
    ev.options.strategy none (hapart _) hneg
  rw [hwalk] at hlists
  obtain ⟨found, hresults, hfound⟩ := hlists
  refine ⟨found, ?_, hfound⟩
  rw [hresults, List.append_nil, List.reverse_reverse]

/-- If the search returns under both strategies, then each result of the baseline strategy has one
of the constrained strategy to itself, which is the same up to the names of unbound variables. In a
definite program no result of the constrained strategy is left over. -/
theorem exists_injective_solve {ev ev' : Evaluator} (hbase : ev'.kb = ev.kb)
    (hstrategy : ev.options.strategy = .baseline) (hstrategy' : ev'.options.strategy = .constrained)
    (hu : ev.options.unifier.occursCheck = true) (hu' : ev'.options.unifier.occursCheck = true)
    (hkb : ev.kb.All (Term.InProgram Term.IsExact)) (hpos : ev.kb.IsPositive)
    {goals : List Goal} (hgoals : ∀ g ∈ goals, g.All (Term.InProgram Term.IsExact))
    (hneg : ∀ g ∈ goals, g.negated = false) {bs cs : List Bindings}
    (hbs : (ev.solve goals ∅).1 = .ok bs) (hcs : (ev'.solve goals ∅).1 = .ok cs) :
    ∃ φ : Fin bs.length → Fin cs.length, Function.Injective φ ∧
      (∀ i, (bs.get i).Variants goals (cs.get (φ i))) ∧
      (ev.kb.IsDefinite → (∀ g ∈ goals, g.IsDefinite) → Function.Bijective φ) := by
  obtain ⟨found, rfl, hnodup, hanswer, hall⟩ := exists_found_of_solve hu hkb hpos hgoals hneg hbs
  obtain ⟨found', rfl, hnodup', hanswer', hall'⟩ := exists_found_of_solve hu' (hbase.symm ▸ hkb)
    (hbase.symm ▸ hpos) hgoals hneg hcs
  rw [hstrategy] at hanswer hall
  rw [hbase, hstrategy'] at hanswer' hall'
  have hsubset : ∀ Ts ∈ found.map Prod.fst, Ts ∈ found'.map Prod.fst := by
    intro Ts hTs
    obtain ⟨e, he, rfl⟩ := List.mem_map.mp hTs
    exact hall' _ (hanswer e he).expects_constrained
  obtain ⟨φ, hinj, hmatch, hsurj⟩ := exists_matching hnodup hsubset
  refine ⟨φ, hinj, fun i => ?_, fun hdef hgoals' => ⟨hinj, hsurj hnodup' fun Ts hTs => ?_⟩⟩
  · obtain ⟨Ts, hmem, hmem'⟩ := hmatch i
    have hresult' := hanswer' _ hmem'
    exact (hanswer _ hmem).variants hresult' fun g hg a ha => (hgoals g hg a ha).2
  · obtain ⟨e, he, rfl⟩ := List.mem_map.mp hTs
    exact hall _ ((hanswer' e he).expects_baseline hdef hgoals')

/-- The second rule compares an age before it is known. -/
def ages : Evaluator :=
  { kb := (((KnowledgeBase.empty.addFact ⟨"age", [.atom "ann", .int 3]⟩).addFact
        ⟨"age", [.atom "bob", .int 5]⟩).addRule
        ⟨⟨"older", [.var "X"]⟩,
          [⟨"age", [.var "X", .var "A"], false⟩, ⟨">", [.var "A", .int 4], false⟩]⟩).addRule
        ⟨⟨"older", [.var "X"]⟩,
          [⟨">", [.var "A", .int 2], false⟩, ⟨"age", [.var "X", .var "A"], false⟩]⟩
    options := { limit := .whole 9 } }

def agesQuery : List Goal := [⟨"older", [.var "W"], false⟩]

theorem exists_injective_solve_ages :
    (∃ bs cs, ((ages.withStrategy .baseline).solve agesQuery ∅).1 = .ok bs ∧
      ((ages.withStrategy .constrained).solve agesQuery ∅).1 = .ok cs ∧ bs.length = 1 ∧
      cs.length = 3 ∧ ∃ φ : Fin bs.length → Fin cs.length, Function.Injective φ ∧
        ∀ i, (bs.get i).Variants agesQuery (cs.get (φ i))) ∧
    ∃ bs cs, ((reaching.withStrategy .baseline).solve reachingQuery ∅).1 = .ok bs ∧
      ((reaching.withStrategy .constrained).solve reachingQuery ∅).1 = .ok cs ∧ bs.length = 2 ∧
      ∃ φ : Fin bs.length → Fin cs.length, Function.Bijective φ ∧
        ∀ i, (bs.get i).Variants reachingQuery (cs.get (φ i)) := by
  constructor
  · obtain ⟨bs, hbs, hlength⟩ : ∃ bs, ((ages.withStrategy .baseline).solve agesQuery ∅).1 = .ok bs ∧
        bs.length = 1 := exists_ok_of_length (by rw [solve_eq_walk rfl]; decide +kernel)
    obtain ⟨cs, hcs, hlength'⟩ : ∃ cs,
        ((ages.withStrategy .constrained).solve agesQuery ∅).1 = .ok cs ∧
        cs.length = 3 := exists_ok_of_length (by rw [solve_eq_walk rfl]; decide +kernel)
    have hbase : (ages.withStrategy .constrained).kb = (ages.withStrategy .baseline).kb := rfl
    obtain ⟨φ, hinj, hvariants, _⟩ := exists_injective_solve hbase rfl rfl rfl rfl (by decide)
      (by decide) (by decide) (by decide) hbs hcs
    exact ⟨bs, cs, hbs, hcs, hlength, hlength', φ, hinj, hvariants⟩
  · obtain ⟨bs, hbs, hlength⟩ : ∃ bs, ((reaching.withStrategy .baseline).solve reachingQuery ∅).1 =
        .ok bs ∧ bs.length = 2 := exists_ok_of_length (by rw [solve_eq_walk rfl]; decide +kernel)
    obtain ⟨cs, hcs, _⟩ : ∃ cs, ((reaching.withStrategy .constrained).solve reachingQuery ∅).1 =
        .ok cs ∧ cs.length = 2 := exists_ok_of_length (by rw [solve_eq_walk rfl]; decide +kernel)
    have hbase : (reaching.withStrategy .constrained).kb = (reaching.withStrategy .baseline).kb :=
      rfl
    obtain ⟨φ, _, hvariants, hbijective⟩ := exists_injective_solve hbase rfl rfl rfl rfl (by decide)
      (by decide) (by decide) (by decide) hbs hcs
    exact ⟨bs, cs, hbs, hcs, hlength, φ, hbijective (by decide) (by decide), hvariants⟩

end Evaluator

end Clausal
