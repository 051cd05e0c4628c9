import Clausal.Proofs.Search.Apart
import Clausal.Proofs.Search.MapVars
import Clausal.Proofs.Unify.Fresh

/-!
# Unbound names in answers

An answer may leave a variable of the query unbound, or bind it to another unbound variable. That
variable is one of the query or one that came with a copy of a clause. A copy's variable stays
unbound only if the head of the clause hides it: an exposed variable, which stands alone in the
first argument that it occurs in, is bound as soon as the head is unified with a goal.

Where no head repeats a variable and no body or query has an equation, a name of the query is never
bound to a variable at all.
-/

namespace Clausal

/-! ## Exposed and hidden variables of clauses -/

/-- The stored clauses. A fact is a rule without body. -/
def KnowledgeBase.clauses (kb : KnowledgeBase) : List Rule :=
  kb.facts.all.map (⟨·, []⟩) ++ kb.rules.all

/-- The first argument in which the name occurs is the name itself. -/
def Fact.Exposes (f : Fact) (v : String) : Prop :=
  (f.args.find? (v ∈ ·.vars)).any Term.isVar = true

instance (f : Fact) : DecidablePred f.Exposes := fun v =>
  inferInstanceAs (Decidable ((f.args.find? (v ∈ ·.vars)).any Term.isVar = true))

/-- A variable of a stored clause that the head of the clause does not expose. -/
def KnowledgeBase.Hides (kb : KnowledgeBase) (v : String) : Prop :=
  ∃ r ∈ kb.clauses, v ∈ r.vars ∧ ¬ r.head.Exposes v

instance (kb : KnowledgeBase) : DecidablePred kb.Hides := fun v =>
  inferInstanceAs (Decidable (∃ r ∈ kb.clauses, v ∈ r.vars ∧ ¬ r.head.Exposes v))

/-- A copy of a hidden variable. -/
def KnowledgeBase.IsHiddenCopy (kb : KnowledgeBase) (y : String) : Prop :=
  ∃ (n : Nat) (v : String), kb.Hides v ∧ y = suffixed (toString n) v

/-- An equation that is not negated. -/
def Goal.Equates (g : Goal) : Prop := g.negated = false ∧ g.predicate = "="

instance : DecidablePred Goal.Equates := fun g =>
  inferInstanceAs (Decidable (g.negated = false ∧ g.predicate = "="))

/-- No head repeats a variable, and no body has an equation. -/
def KnowledgeBase.IsAliasFree (kb : KnowledgeBase) : Prop :=
  ∀ r ∈ kb.clauses, r.head.vars.Nodup ∧ ∀ g ∈ r.body, ¬ g.Equates

instance : DecidablePred KnowledgeBase.IsAliasFree := fun kb =>
  inferInstanceAs (Decidable (∀ r ∈ kb.clauses, r.head.vars.Nodup ∧ ∀ g ∈ r.body, ¬ g.Equates))

theorem Fact.Exposes.exists_args {f : Fact} {v : String} (h : f.Exposes v) :
    ∃ before after, f.args = before ++ .var v :: after ∧ ∀ a ∈ before, v ∉ a.vars := by
  cases hfind : f.args.find? (v ∈ ·.vars) with
  | none => simp [Exposes, hfind] at h
  | some a =>
      obtain ⟨hmem, before, after, heq, hbefore⟩ := List.find?_eq_some_iff_append.mp hfind
      cases a with
      | var w =>
          obtain rfl : v = w := by simpa [Term.vars] using hmem
          exact ⟨before, after, heq, fun a ha => by simpa using hbefore a ha⟩
      | _ => simp [Exposes, hfind, Term.isVar] at h

namespace Search

variable {t : Task} {strategy : Strategy} {s s' : State} {sel : Selection} {p p' : Progress}
  {b₀ : Bindings}

/-- A state that comes from a clause: the goal is unified with the head of a copy, and the body of
the copy comes in. The names of the copy have the next number. -/
theorem exists_clause_of_attempt (hkb : t.kb.All Term.HashFree) {depth : Nat}
    {attempt : Progress → Attempt} (hmem : attempt ∈ attempts t sel depth)
    (hattempt : attempt p = (.ok (some s'), p')) :
    ∃ r ∈ t.kb.clauses, ∃ ρ b,
      (∀ v ∈ r.vars, ρ v = suffixed (toString (p.fresh t.options.mode depth)) v) ∧
      t.options.unifier.unifyArgs (Term.mapVarsAll ρ r.head.args) sel.goal.args sel.bindings =
        .ok (some b) ∧
      s' = ⟨r.body.map (Goal.mapVars ρ) ++ sel.rest, b, depth + 1⟩ := by
  rcases List.mem_append.mp hmem with hfact | hrule
  · obtain ⟨f, hf, rfl⟩ := List.mem_map.mp hfact
    have hf := KnowledgeBase.mem_facts_of_mem_factsFor hf
    have hclause : ⟨f, []⟩ ∈ t.kb.clauses := List.mem_append_left _ (List.mem_map_of_mem hf)
    rcases tryFact_ok hattempt with ⟨_, hnone⟩ | ⟨o, hunify, hs', _⟩
    · simp at hnone
    obtain ⟨b, rfl, rfl⟩ := Option.map_eq_some_iff.mp hs'.symm
    cases hground : f.isGround with
    | true =>
        -- A ground fact is taken as it is.
        refine ⟨_, hclause, id, b, fun v hv => ?_, ?_, rfl⟩
        · obtain ⟨a, ha, hva⟩ := Term.mem_varsAll.mp (by simpa [Rule.vars, Fact.vars] using hv)
          have hargs : ∀ a ∈ f.args, a.isGround = true := by
            simpa [Fact.isGround, Term.isGroundAll_eq] using hground
          exact (Term.isGround_iff.mp (hargs a ha) v hva).elim
        · rw [copyFact, if_pos hground] at hunify
          rwa [Term.mapVarsAll_of_isGroundAll hground]
    | false =>
        obtain ⟨ρ, hρ, heq⟩ := copyFact_eq (hkb.1 f hf) hground t.options.mode depth p
        rw [heq] at hunify
        refine ⟨_, hclause, ρ, b, fun v hv => ?_, hunify, rfl⟩
        obtain ⟨a, ha, hva⟩ := Term.mem_varsAll.mp (by simpa [Rule.vars, Fact.vars] using hv)
        exact hρ a ha v hva
  · obtain ⟨r, hr, rfl⟩ := List.mem_map.mp hrule
    have hr := KnowledgeBase.mem_rules_of_mem_rulesFor hr
    rcases tryRule_ok hattempt with ⟨_, hnone⟩ | ⟨o, hunify, hs', _⟩
    · simp at hnone
    obtain ⟨b, rfl, rfl⟩ := Option.map_eq_some_iff.mp hs'.symm
    obtain ⟨ρ, hhead, hbody, heq⟩ := copyRule_eq (hkb.2 r hr) t.options.mode depth p
    rw [heq] at hunify ⊢
    refine ⟨r, List.mem_append_right _ hr, ρ, b, fun v hv => ?_, hunify, rfl⟩
    obtain hv | ⟨g, hg, hvg⟩ := Rule.mem_vars.mp hv
    · obtain ⟨a, ha, hva⟩ := Term.mem_varsAll.mp hv
      exact hhead a ha v hva
    · obtain ⟨a, ha, hva⟩ := Term.mem_varsAll.mp hvg
      exact hbody g hg a ha v hva

end Search

/-- The names of the next copy are not known to a state. -/
theorem Term.InState.within {Q : Term → Prop} {k : Nat} {u : Term} (h : u.InState Q k)
    (v : String) :
    u.Within (· ≠ suffixed (toString k) v) :=
  fun x hx => ((h.2 x hx).ne_suffixed v).symm

theorem Bindings.Grown.lacks {Q : Term → Prop} {k : Nat} {b b₀ : Bindings}
    (h : b.Grown (Term.InState Q k) b₀) (v : String) : b.Lacks (suffixed (toString k) v) :=
  ⟨fun x u hx => (h.keys x u hx).within v, fun x u hx => (h.values x u hx).within v⟩

/-! ## Unbound names -/

/-- The unbound variables of the term belong to a class. -/
def Term.Settled (H : String → Prop) (b : Bindings) (u : Term) : Prop :=
  u.Within fun x => b.get? x = none → H x

theorem Term.Settled.mono {H : String → Prop} {b c : Bindings} {u : Term} (h : u.Settled H b)
    (hext : c.Extends b) : u.Settled H c := by
  intro x hx hc
  refine h x hx ?_
  cases hb : b.get? x with
  | none => rfl
  | some v => simp [hext x v hb] at hc

/-- The unbound variables of the values belong to a class. -/
def Bindings.Settled (H : String → Prop) (b : Bindings) : Prop := b.Values (Term.Settled H b)

namespace Bindings.Settled

variable {H : String → Prop} {b c : Bindings} {u : Unifier}

theorem of_moves (h : b.Settled H) (hb : b.Acyclic) {ps : List (Term × Term)}
    (hmoves : Unify.Moves true ⟨ps, b⟩ ⟨[], c⟩)
    (hps : ∀ l r, (l, r) ∈ ps → l.Settled H c ∧ r.Settled H c) : c.Settled H := by
  have hext := hmoves.extends_bindings hb
  exact (hmoves.all (Term.hereditary_within _) ⟨hps, fun x v hv => (h x v hv).mono hext⟩).2

theorem of_unify (h : b.Settled H) (hb : b.Acyclic) (hu : u.occursCheck = true) {l r : Term}
    (hunify : u.unify l r b = .ok (some c)) (hl : l.Settled H b) (hr : r.Settled H b) :
    c.Settled H := by
  have hmoves := Unifier.moves_of_unify hu hb hunify
  have hext := hmoves.extends_bindings hb
  refine h.of_moves hb hmoves fun l' r' hmem => ?_
  obtain ⟨rfl, rfl⟩ : l' = l ∧ r' = r := by simpa using hmem
  exact ⟨hl.mono hext, hr.mono hext⟩

theorem of_unifyArgs (h : b.Settled H) (hb : b.Acyclic) (hu : u.occursCheck = true)
    {ss ts : List Term} (hunify : u.unifyArgs ss ts b = .ok (some c))
    (hss : ∀ a ∈ ss, a.Settled H c) (hts : ∀ a ∈ ts, a.Settled H b) : c.Settled H := by
  have hmoves := Unifier.moves_of_unifyArgs hu hb hunify
  have hext := hmoves.extends_bindings hb
  refine h.of_moves hb hmoves fun l r hmem => ?_
  obtain ⟨hl, hr⟩ := List.of_mem_zip hmem
  exact ⟨hss l hl, (hts r hr).mono hext⟩

theorem of_solve (h : b.Settled H) (hb : b.Acyclic) (hu : u.occursCheck = true) {g : Goal}
    (hsolve : Builtin.solve u g b = .ok (some c)) (hg : g.All (Term.Settled H b)) :
    c.Settled H := by
  obtain ⟨l, r, hargs, hcases⟩ := Builtin.solve_eq_some hsolve
  have hl : (b.resolve l).Settled H b := h.resolve (hg l (by simp [hargs]))
  have hr : (b.resolve r).Settled H b := h.resolve (hg r (by simp [hargs]))
  rcases hcases with ⟨_, hunify⟩ | ⟨_, _, _, _, _, _, _, rfl⟩ | ⟨_, n, _, hunify⟩
  · exact h.of_unify hb hu hunify hl hr
  · exact h
  · have hvalue : n.normalize.toTerm.Settled H b := by
      intro x hx
      cases hn : n.normalize <;> simp [hn, Number.toTerm, Term.vars] at hx
    exact h.of_unify hb hu hunify hl hvalue

/-- What is left of a name of the class is of the class. -/
theorem of_mem_vars_image (h : b.Settled H) (hb : b.Acyclic) {x y : String}
    (hx : b.get? x = none → H x) (hy : y ∈ (b.image x).vars) : H y := by
  induction x using hb.induction with
  | unbound x hfree =>
      rw [image_of_unbound hfree, Term.vars, List.mem_singleton] at hy
      exact hy ▸ hx hfree
  | bound x u hu ih =>
      rw [hb.image_of_bound hu] at hy
      obtain ⟨z, hz, hyz⟩ := Term.mem_vars_apply.mp hy
      exact ih z hz (h x u hu z hz) hyz

end Bindings.Settled

namespace Search

variable {t : Task} {strategy : Strategy} {s s' : State} {sel : Selection} {p p' : Progress}
  {b₀ : Bindings} {H : String → Prop}

/-- The unbound variables of the goals and of the values belong to a class. -/
structure State.Settled (H : String → Prop) (s : State) : Prop where
  bindings : s.bindings.Settled H
  goals : ∀ g ∈ s.goals, g.All (Term.Settled H s.bindings)

/-- An exposed variable of a copy is bound when the head of the copy is unified with a goal. -/
theorem exists_of_exposes {u : Unifier} (hu : u.occursCheck = true) {Q : Term → Prop} {k : Nat}
    {b c : Bindings} (hb : b.Grown (Term.InState Q k) b₀) {ts : List Term}
    (hts : ∀ a ∈ ts, a.InState Q k) {f : Fact} {ρ : String → String}
    (hρ : ∀ v ∈ f.vars, ρ v = suffixed (toString k) v)
    (hunify : u.unifyArgs (Term.mapVarsAll ρ f.args) ts b = .ok (some c)) {v : String}
    (hv : f.Exposes v) : ∃ w, c.get? (suffixed (toString k) v) = some w := by
  obtain ⟨before, after, hargs, hbefore⟩ := hv.exists_args
  have hvars : ∀ a ∈ f.args, ∀ x ∈ a.vars, ρ x = suffixed (toString k) x :=
    fun a ha x hx => hρ x (Term.mem_varsAll.mpr ⟨a, ha, hx⟩)
  have hself : (Term.var v).mapVars ρ = .var (suffixed (toString k) v) := by
    rw [Term.mapVars, hvars (.var v) (by simp [hargs]) v List.mem_cons_self]
  rw [Term.mapVarsAll_eq, hargs, List.map_append, List.map_cons, hself] at hunify
  refine Unifier.exists_of_unifyArgs_var hu hb.acyclic hunify (fun a ha => ?_)
    (fun a ha => (hts a ha).within v) (hb.lacks v)
  obtain ⟨d, hd, rfl⟩ := List.mem_map.mp ha
  intro x hx hxv
  obtain ⟨w, hw, rfl⟩ := Term.mem_vars_mapVars.mp hx
  rw [hvars d (by simp [hargs, hd]) w hw] at hxv
  exact hbefore d hd (suffixed_injective _ hxv ▸ hw)

/-- The unbound variables of a copy are copies of hidden ones when the head is
unified with a goal. -/
theorem settled_mapVars {u : Unifier} (hu : u.occursCheck = true) {Q : Term → Prop} {k : Nat}
    {b c : Bindings} (hb : b.Grown (Term.InState Q k) b₀) {ts : List Term}
    (hts : ∀ a ∈ ts, a.InState Q k) {r : Rule} {ρ : String → String}
    (hρ : ∀ v ∈ r.vars, ρ v = suffixed (toString k) v)
    (hunify : u.unifyArgs (Term.mapVarsAll ρ r.head.args) ts b = .ok (some c))
    (hH : ∀ v ∈ r.vars, ¬ r.head.Exposes v → H (suffixed (toString k) v)) {a : Term}
    (ha : ∀ v ∈ a.vars, v ∈ r.vars) : (a.mapVars ρ).Settled H c := by
  intro x hx hfree
  obtain ⟨v, hv, rfl⟩ := Term.mem_vars_mapVars.mp hx
  rw [hρ v (ha v hv)] at hfree ⊢
  by_cases hexposed : r.head.Exposes v
  · obtain ⟨w, hw⟩ :=
      exists_of_exposes hu hb hts (fun x hx => hρ x (List.mem_append_left _ hx)) hunify
      hexposed
    rw [hw] at hfree
    cases hfree
  · exact hH v (ha v hv) hexposed

section Settled

variable (hu : t.options.unifier.occursCheck = true)

include hu

theorem State.Settled.selection (h : s.Settled H) (hs : s.bindings.Acyclic)
    (hsel : Selects t strategy s sel) : sel.bindings.Settled H := by
  refine (hsel.keeps (motive := fun c => c.Acyclic ∧ c.Extends s.bindings ∧ c.Settled H)
    ⟨hs, .refl _, h.bindings⟩ ?_).2.2
  rintro g hg f _ hground b c ⟨hb, hext, hsettled⟩ hunify
  have hmoves := Unifier.moves_of_unifyArgs hu hb hunify
  refine ⟨hmoves.acyclic hb, (hmoves.extends_bindings hb).trans hext,
    hsettled.of_unifyArgs hb hu hunify (fun a ha => ?_) fun a ha => (h.goals g hg a ha).mono hext⟩
  -- Propagation uses ground facts only, so it brings in no names.
  rw [Fact.isGround, Term.isGroundAll_eq, List.all_eq_true] at hground
  exact Term.within_of_isGround (hground a ha)

/-- Whatever is unbound after a step was unbound before, or it came with a copy of a
clause that hides it. -/
theorem State.Settled.follows (hkb : t.kb.All Term.HashFree)
    (hH : ∀ k v, t.kb.Hides v → H (suffixed (toString (k : Nat)) v))
    (hapart : s.Apart (fun _ => True) b₀ (p.fresh t.options.mode s.depth)) (h : s.Settled H)
    (hfollows : Follows t strategy s p s' p') : s'.Settled H := by
  have hs := hapart.bindings.acyclic
  -- The other goals are kept, and the bindings only grow.
  have hgoals : ∀ {sel : Selection} {b : Bindings}, Selects t strategy s sel →
      b.Extends sel.bindings → ∀ g ∈ s.goals, g.All (Term.Settled H b) :=
    fun hsel hext g hg a ha => (h.goals g hg a ha).mono (hext.trans (hsel.sound hu hs).1)
  cases hfollows with
  | @negated sel _ hsel _ _ =>
      exact ⟨h.selection hu hs hsel, fun g hg => hgoals hsel (.refl _) g (hsel.mem_of_mem_rest hg)⟩
  | @builtin sel b _ hsel hneg _ hsolve _ =>
      have hb := (hsel.sound hu hs).2
      have hext := (Builtin.solve_sound t.kb hu hb hneg hsolve).1
      exact ⟨(h.selection hu hs hsel).of_solve hb hu hsolve (hgoals hsel (.refl _) _ hsel.goal_mem),
        fun g hg => hgoals hsel hext g (hsel.mem_of_mem_rest hg)⟩
  | @clause sel attempt _ _ hsel _ _ hmem hattempt =>
      obtain ⟨r, hr, ρ, b, hρ, hunify, rfl⟩ := exists_clause_of_attempt hkb hmem hattempt
      have hgrown := hapart.selection Term.inherited_true.hereditary hu hkb.inProgram hsel
      have hext :=
        (Unifier.moves_of_unifyArgs hu hgrown.acyclic hunify).extends_bindings hgrown.acyclic
      have hcopy : ∀ a : Term, (∀ v ∈ a.vars, v ∈ r.vars) → (a.mapVars ρ).Settled H b :=
        fun a ha => settled_mapVars hu hgrown (hapart.goals _ hsel.goal_mem) hρ hunify
          (fun v hv hexposed => hH _ v ⟨r, hr, hv, hexposed⟩) ha
      refine ⟨(h.selection hu hs hsel).of_unifyArgs hgrown.acyclic hu hunify (fun a ha => ?_)
        (hgoals hsel (.refl _) _ hsel.goal_mem), fun g hg => ?_⟩
      · rw [Term.mapVarsAll_eq] at ha
        obtain ⟨d, hd, rfl⟩ := List.mem_map.mp ha
        exact hcopy d fun v hv => Rule.mem_vars.mpr (.inl (Term.mem_varsAll.mpr ⟨d, hd, hv⟩))
      · rcases List.mem_append.mp hg with hg | hg
        · obtain ⟨g, hgr, rfl⟩ := List.mem_map.mp hg
          intro a ha
          rw [Goal.mapVars, Term.mapVarsAll_eq] at ha
          obtain ⟨d, hd, rfl⟩ := List.mem_map.mp ha
          exact hcopy d fun v hv =>
            Rule.mem_vars.mpr (.inr ⟨g, hgr, Term.mem_varsAll.mpr ⟨d, hd, hv⟩⟩)
        · exact hgoals hsel hext g (hsel.mem_of_mem_rest hg)

end Settled

/-! ## Aliases -/

/-- No name of a program is bound to a variable, and no goal is an equation. -/
structure State.AliasFree (s : State) : Prop where
  bindings : s.bindings.AliasesOnly fun x => ¬ HashFree x
  goals : ∀ g ∈ s.goals, ¬ g.Equates

section AliasFree

variable (hu : t.options.unifier.occursCheck = true)

include hu

theorem State.AliasFree.selection (h : s.AliasFree) (hs : s.bindings.Acyclic)
    (hsel : Selects t strategy s sel) : sel.bindings.AliasesOnly fun x => ¬ HashFree x := by
  refine (hsel.keeps (motive := fun c => c.Acyclic ∧ c.AliasesOnly fun x => ¬ HashFree x)
    ⟨hs, h.bindings⟩ ?_).2
  rintro g hg f _ hground b c ⟨hb, haliases⟩ hunify
  have hvars : Term.varsAll f.args = [] := List.eq_nil_iff_forall_not_mem.mpr fun x hx => by
    obtain ⟨a, ha, hxa⟩ := Term.mem_varsAll.mp hx
    rw [Fact.isGround, Term.isGroundAll_eq, List.all_eq_true] at hground
    exact Term.isGround_iff.mp (hground a ha) x hxa
  exact ⟨(Unifier.moves_of_unifyArgs hu hb hunify).acyclic hb,
    Unifier.aliasesOnly_of_unifyArgs hu hb hunify (by simp [hvars]) (by simp [hvars]) haliases⟩

/-- A head that does not repeat a variable is unified without binding a name of the
state to a variable. -/
theorem State.AliasFree.follows (hkb : t.kb.All Term.HashFree) (hfree : t.kb.IsAliasFree)
    (hapart : s.Apart (fun _ => True) b₀ (p.fresh t.options.mode s.depth)) (h : s.AliasFree)
    (hfollows : Follows t strategy s p s' p') : s'.AliasFree := by
  have hs := hapart.bindings.acyclic
  cases hfollows with
  | @negated sel _ hsel _ _ =>
      exact ⟨h.selection hu hs hsel, fun g hg => h.goals g (hsel.mem_of_mem_rest hg)⟩
  | @builtin sel b _ hsel hneg _ hsolve _ =>
      have hb := (hsel.sound hu hs).2
      refine ⟨?_, fun g hg => h.goals g (hsel.mem_of_mem_rest hg)⟩
      obtain ⟨l, r, _, ⟨hequal, _⟩ | ⟨_, _, _, _, _, _, _, rfl⟩ | ⟨_, n, _, hunify⟩⟩ :=
        Builtin.solve_eq_some hsolve
      · exact (h.goals _ hsel.goal_mem ⟨hneg, hequal⟩).elim
      · exact h.selection hu hs hsel
      · have hleaf : n.normalize.toTerm.isLeaf = true := by cases n.normalize <;> rfl
        exact Unifier.aliasesOnly_of_unify_leaf hu hb hleaf hunify (h.selection hu hs hsel)
  | @clause sel attempt _ _ hsel _ _ hmem hattempt =>
      obtain ⟨r, hr, ρ, b, hρ, hunify, rfl⟩ := exists_clause_of_attempt hkb hmem hattempt
      have hgrown := hapart.selection Term.inherited_true.hereditary hu hkb.inProgram hsel
      obtain ⟨hnodup, hbody⟩ := hfree r hr
      have hhead : ∀ v ∈ r.head.vars,
          ρ v = suffixed (toString (p.fresh t.options.mode s.depth)) v :=
        fun v hv => hρ v (List.mem_append_left _ hv)
      refine ⟨?_, fun g hg => ?_⟩
      · refine Unifier.aliasesOnly_of_unifyArgs hu hgrown.acyclic hunify ?_ (fun x hx => ?_)
          (h.selection hu hs hsel)
        · rw [Term.varsAll_mapVarsAll]
          refine hnodup.map_on fun v hv w hw heq => ?_
          rw [hhead v hv, hhead w hw] at heq
          exact suffixed_injective _ heq
        · rw [Term.varsAll_mapVarsAll] at hx
          obtain ⟨v, hv, rfl⟩ := List.mem_map.mp hx
          rw [hhead v hv]
          exact ⟨not_hashFree_suffixed _ v, hgrown.lacks v,
            fun a ha => (hapart.goals _ hsel.goal_mem a ha).within v⟩
      · rcases List.mem_append.mp hg with hg | hg
        · obtain ⟨g, hgr, rfl⟩ := List.mem_map.mp hg
          exact hbody g hgr
        · exact h.goals g (hsel.mem_of_mem_rest hg)

end AliasFree

end Search

theorem Bindings.AliasesOnly.eq_of_image {F : String → Prop} {b : Bindings} (h : b.AliasesOnly F)
    (hb : b.Acyclic) {x y : String} (hx : ¬ F x) (himage : b.image x = .var y) : y = x := by
  cases hu : b.get? x with
  | none =>
      rw [image_of_unbound hu] at himage
      exact (Term.var.inj himage).symm
  | some u =>
      rw [hb.image_of_bound hu] at himage
      cases u with
      | var z => exact (hx (h x z hu)).elim
      | _ => simp at himage

/-! ## Results -/

theorem Solution.mem_variablesOf {goals : List Goal} {x : String} :
    x ∈ variablesOf goals ↔ ∃ g ∈ goals, x ∈ g.vars := by
  simp only [variablesOf, Term.orderedVars, List.mem_eraseDups, Goal.vars, Term.mem_varsAll,
    List.mem_flatMap]
  constructor
  · rintro ⟨a, ⟨g, hg, ha⟩, hx⟩
    exact ⟨g, hg, a, ha, hx⟩
  · rintro ⟨g, hg, a, ha, hx⟩
    exact ⟨a, ⟨g, hg, ha⟩, hx⟩

namespace Evaluator

open Search

variable {ev : Evaluator} {goals : List Goal} {results : List Bindings} {b : Bindings}

/-- The states of a search from a program keep any invariant of its steps. -/
theorem of_mem_solve {P : State → Prop} (hu : ev.options.unifier.occursCheck = true)
    (hkb : ev.kb.All Term.HashFree) (hgoals : ∀ g ∈ goals, g.All Term.HashFree)
    (hstart : P ⟨goals, ∅, 0⟩)
    (hstep : ∀ {p p' s s'}, s.Apart (fun _ => True) ∅ (p.fresh ev.options.mode s.depth) → P s →
      Follows ⟨ev.kb, ev.options, none⟩ ev.options.strategy s p s' p' → P s')
    (hsolve : (ev.solve goals ∅).1 = .ok results) (hb : b ∈ results) :
    b.Acyclic ∧ ∃ s, P s ∧ s.bindings = b := by
  obtain ⟨n, f, hwalk, rfl⟩ := walk_of_solve hsolve
  -- The steps may assume that copies are apart, so that is carried along.
  have hyields : (walk ⟨ev.kb, ev.options, none⟩ n ev.options.strategy none ⟨goals, ∅, 0⟩
      ⟨[], {}⟩).Yields [] fun b => b.Acyclic ∧ ∃ s, P s ∧ s.bindings = b := by
    refine yields_walk_of_follows
      (P := fun p s => s.Apart (fun _ => True) ∅ (p.fresh ev.options.mode s.depth) ∧ P s)
      ?_ ?_ ?_ n none _ _ ⟨⟨?_, fun g hg a ha => ?_⟩, hstart⟩
    · exact fun h hle => ⟨h.1.mono (fresh_mono (Nat.le_refl _) hle), h.2⟩
    · exact fun h hfollows =>
        ⟨h.1.follows Term.inherited_true hu hkb.inProgram hfollows, hstep h.1 h.2 hfollows⟩
    · exact fun h _ => ⟨h.1.bindings.acyclic, _, h.2, rfl⟩
    · exact ⟨Bindings.acyclic_empty, .refl _, Bindings.keys_empty _, Bindings.values_empty _⟩
    · exact ⟨trivial, fun x hx => .inl (hgoals g hg a ha x hx)⟩
  rw [hwalk] at hyields
  rcases hyields b (List.mem_reverse.mp hb) with hold | hresult
  · simp at hold
  · exact hresult

variable (hu : ev.options.unifier.occursCheck = true) (hkb : ev.kb.All Term.HashFree)
  (hgoals : ∀ g ∈ goals, g.All Term.HashFree) (hsolve : (ev.solve goals ∅).1 = .ok results)
  (hb : b ∈ results)

include hu hkb hgoals hsolve hb

/-- A variable of the query that is left unbound stands for a variable of the query or for a hidden
variable of a clause. -/
theorem unbound_of_mem_solve {x y : String} (hx : x ∈ Solution.variablesOf goals)
    (hy : b.image x = .var y) : y ∈ Solution.variablesOf goals ∨ ev.kb.IsHiddenCopy y := by
  let H (y : String) : Prop := y ∈ Solution.variablesOf goals ∨ ev.kb.IsHiddenCopy y
  have hstart : State.Settled H ⟨goals, ∅, 0⟩ := by
    refine ⟨Bindings.values_empty _, fun g hg a ha z hz _ => .inl ?_⟩
    exact Solution.mem_variablesOf.mpr ⟨g, hg, Term.mem_varsAll.mpr ⟨a, ha, hz⟩⟩
  have hhidden : ∀ k v, ev.kb.Hides v → H (suffixed (toString k) v) :=
    fun k v hv => .inr ⟨k, v, hv, rfl⟩
  obtain ⟨hacyclic, s, hs, rfl⟩ := of_mem_solve hu hkb hgoals hstart
    (fun hapart h => h.follows hu hkb hhidden hapart) hsolve hb
  exact hs.bindings.of_mem_vars_image hacyclic (fun _ => .inl hx) (by simp [hy, Term.vars])

/-- Without equations and repeated variables in heads it stands for itself. -/
theorem eq_of_mem_solve (hfree : ev.kb.IsAliasFree) (hequal : ∀ g ∈ goals, ¬ g.Equates)
    {x y : String} (hx : x ∈ Solution.variablesOf goals) (hy : b.image x = .var y) : y = x := by
  obtain ⟨hacyclic, s, hs, rfl⟩ := of_mem_solve (P := State.AliasFree) hu hkb hgoals
    ⟨fun x y hxy => by simp at hxy, hequal⟩
    (fun hapart h => h.follows hu hkb hfree hapart) hsolve hb
  obtain ⟨g, hg, hxg⟩ := Solution.mem_variablesOf.mp hx
  obtain ⟨a, ha, hxa⟩ := Term.mem_varsAll.mp hxg
  exact hs.bindings.eq_of_image hacyclic (not_not.mpr (hgoals g hg a ha x hxa)) hy

end Evaluator

end Clausal
