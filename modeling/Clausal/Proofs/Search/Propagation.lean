import Clausal.Proofs.Bindings.Substitution
import Clausal.Proofs.Search.Ready
import Clausal.Proofs.Search.Selection
import Clausal.Proofs.Unify.Ground

/-!
# Propagation is exact

Propagation binds the variables of a goal to the arguments of the only fact that can satisfy it. The
fact is ground, so what is bound are unbound variables that the goal reaches, and their values are
ground parts of the fact. No solution is lost: a substitution that solves the bindings and makes
every positive goal of a user-defined predicate an instance of the head of a clause also solves the
new bindings, and there is none where propagation gives up. Afterwards no goal with such a fact has
an unbound argument, so a second propagation passes over all goals.
-/

namespace Clausal

/-- The parts of a term: the term itself and the parts of its arguments. -/
inductive Term.HasPart (t : Term) : Term → Prop
  | self : HasPart t t
  | argument {f : String} {args : List Term} {a : Term} (h : HasPart t (.compound f args))
      (ha : a ∈ args) : HasPart t a

namespace Bindings

variable {b c : Bindings} {t : Term} {x y : String}

/-- Resolving a term only leads to variables that it reaches. -/
theorem Acyclic.exists_leads_of_resolve (hb : b.Acyclic) (hx : x ∈ (b.resolve t).vars) :
    ∃ y ∈ t.vars, Relation.ReflTransGen b.Leads y x := by
  rcases t.var_or_nonvar with ⟨z, rfl⟩ | hne
  · refine ⟨z, by simp [Term.vars], ?_⟩
    induction z using hb.induction with
    | unbound z hz =>
        rw [resolve, deref_of_unbound hz, Term.vars, List.mem_singleton] at hx
        rw [hx]
    | bound z t ht ih =>
        rw [resolve, hb.deref_of_bound ht] at hx
        rcases t.var_or_nonvar with ⟨w, rfl⟩ | hne
        · exact .head ⟨_, ht, by simp [Term.vars]⟩ (ih w (by simp [Term.vars]) hx)
        · rw [resolve_of_nonvar hne] at hx
          exact .single ⟨t, ht, hx⟩
  · rw [resolve_of_nonvar hne] at hx
    exact ⟨x, hx, .refl⟩

theorem Acyclic.isVar_resolve (hb : b.Acyclic) (t : Term) :
    (b.resolve t).isVar = (t.apply b.image).isVar := by
  rw [← hb.apply_resolve hb.solvedBy_image t]
  cases hr : b.resolve t with
  | var y => rw [Term.apply_var, image_of_unbound (hb.get?_of_resolve_var hr)]
  | compound f args => rw [Term.apply_compound]; rfl
  | _ => rfl

/-- What filling in ground terms binds: a variable that the terms on the right reach gets a ground
part of a term on the left. -/
structure Fill (b : Bindings) (ss ts : List Term) (x : String) (v : Term) : Prop where
  unbound : b.get? x = none
  reached : b.Reaches ts x
  ground : v.isGround = true
  part : ∃ s ∈ ss, s.HasPart v

/-- All entries are old, or fill in a variable. -/
def FilledFrom (c b : Bindings) (New : String → Term → Prop) : Prop :=
  ∀ x v, c.get? x = some v → b.get? x = some v ∨ New x v

variable {New : String → Term → Prop}

/-- Ground values lead nowhere. -/
theorem FilledFrom.leads_le (h : c.FilledFrom b New) (hnew : ∀ x v, New x v → v.isGround = true) :
    c.Leads ≤ b.Leads := by
  rintro x y ⟨v, hv, hy⟩
  rcases h x v hv with hold | hfill
  · exact ⟨v, hold, hy⟩
  · exact (Term.isGround_iff.mp (hnew x v hfill) y hy).elim

theorem get?_of_extends (h : c.Extends b) (hx : c.get? x = none) : b.get? x = none := by
  cases ht : b.get? x with
  | none => rfl
  | some t => simp [h x t ht] at hx

/-- What is filled in later was unbound and reached from the start. -/
theorem FilledFrom.fill (h : c.FilledFrom b New) (hnew : ∀ x v, New x v → v.isGround = true)
    (hext : c.Extends b) {ss ts : List Term} {v : Term} (hv : c.Fill ss ts x v) :
    b.Fill ss ts x v := by
  refine ⟨get?_of_extends hext hv.unbound, ?_, hv.ground, hv.part⟩
  obtain ⟨t, ht, y, hy, hreach⟩ := hv.reached
  exact ⟨t, ht, y, hy, Relation.ReflTransGen.mono (h.leads_le hnew) y x hreach⟩

end Bindings

/-! ## Filling in ground terms -/

namespace Unify

variable {b : Bindings} {ss ts : List Term} {p q : Problem}

/-- The terms on the left are ground parts of given ones, those on the right have variables that
given ones reach, and the entries that were made fill in such variables. -/
structure Fills (b : Bindings) (ss ts : List Term) (p : Problem) : Prop where
  left : ∀ s t, (s, t) ∈ p.pairs → s.isGround = true ∧ ∃ a ∈ ss, a.HasPart s
  right : ∀ s t, (s, t) ∈ p.pairs → ∀ x ∈ t.vars, b.Reaches ts x
  entries : p.bindings.FilledFrom b (b.Fill ss ts)

theorem Fills.reaches_of_resolve (h : Fills b ss ts p) (hp : p.bindings.Acyclic) {s t : Term}
    (hst : (s, t) ∈ p.pairs) {x : String} (hx : x ∈ (p.bindings.resolve t).vars) :
    b.Reaches ts x := by
  obtain ⟨y, hy, hyx⟩ := hp.exists_leads_of_resolve hx
  obtain ⟨t', ht', z, hz, hzy⟩ := h.right s t hst y hy
  have hleads := h.entries.leads_le fun _ _ hfill => hfill.ground
  exact ⟨t', ht', z, hz, hzy.trans (Relation.ReflTransGen.mono hleads y x hyx)⟩

theorem Fills.of_mem (h : Fills b ss ts p) {ps : List (Term × Term)} (hps : ∀ s t, (s, t) ∈ ps →
    (s, t) ∈ p.pairs) : Fills b ss ts ⟨ps, p.bindings⟩ :=
  ⟨fun s t hst => h.left s t (hps s t hst), fun s t hst => h.right s t (hps s t hst), h.entries⟩

theorem Move.fills (h : Move true p q) (hp : p.bindings.Acyclic) (hext : p.bindings.Extends b)
    (hfills : Fills b ss ts p) : Fills b ss ts q := by
  -- the first term on the left is ground, so it is resolved and no variable
  have hresolve : ∀ {s t : Term}, (s, t) ∈ p.pairs → p.bindings.resolve s = s := fun hst =>
    Bindings.resolve_of_nonvar (Term.ne_var_of_isGround (hfills.left _ _ hst).1)
  cases h with
  | same hs | bindLeft hs =>
      have hground := (hfills.left _ _ List.mem_cons_self).1
      rw [← hresolve List.mem_cons_self, hs] at hground
      simp [Term.isGround] at hground
  | leaves => exact hfills.of_mem fun s t hst => List.mem_cons_of_mem _ hst
  | @bindRight s t ps c y hs ht =>
      have hfirst : (s, t) ∈ (s, t) :: ps := List.mem_cons_self
      obtain ⟨hground, hpart⟩ := hfills.left s t hfirst
      have hreached : b.Reaches ts y :=
        hfills.reaches_of_resolve hp hfirst (by simp [ht, Term.vars])
      have hfree := Bindings.get?_of_extends hext (hp.get?_of_resolve_var ht)
      refine ⟨fun s t hst => hfills.left s t (List.mem_cons_of_mem _ hst),
        fun s t hst => hfills.right s t (List.mem_cons_of_mem _ hst), fun x v hv => ?_⟩
      rw [Bindings.get?_insert, hresolve hfirst] at hv
      split at hv
      · next hyx =>
        obtain rfl : s = v := by simpa using hv
        exact .inr (hyx ▸ ⟨hfree, hreached, hground, hpart⟩)
      · exact hfills.entries x v hv
  | @decompose s t ps c f ss' ts' hs ht =>
      have hfirst : (s, t) ∈ (s, t) :: ps := List.mem_cons_self
      obtain ⟨hground, a, ha, hpart⟩ := hfills.left s t hfirst
      rw [hresolve hfirst] at hs
      rw [hs] at hground hpart
      refine ⟨fun s' t' hst => ?_, fun s' t' hst => ?_, hfills.entries⟩
      · rcases List.mem_append.mp hst with hzip | hrest
        · have hs' := (List.of_mem_zip hzip).1
          exact ⟨Term.hereditary_isGround f ss' hground s' hs', a, ha, .argument hpart hs'⟩
        · exact hfills.left s' t' (List.mem_cons_of_mem _ hrest)
      · rcases List.mem_append.mp hst with hzip | hrest
        · intro x hx
          refine hfills.reaches_of_resolve hp hfirst ?_
          rw [ht]
          exact Term.mem_vars_compound.mpr ⟨t', (List.of_mem_zip hzip).2, hx⟩
        · exact hfills.right s' t' (List.mem_cons_of_mem _ hrest)

theorem Moves.fills (h : Moves true p q) (hp : p.bindings.Acyclic) (hext : p.bindings.Extends b)
    (hfills : Fills b ss ts p) : Fills b ss ts q := by
  induction h with
  | refl => exact hfills
  | tail hmoves hmove ih =>
      exact hmove.fills (Moves.acyclic hmoves hp) ((Moves.extends_bindings hmoves hp).trans hext) ih

end Unify

/-- Unifying ground terms with others fills in variables that the others reach. -/
theorem Unifier.filledFrom_of_unifyArgs {u : Unifier} (hu : u.occursCheck = true) {b c : Bindings}
    (hb : b.Acyclic) {ss ts : List Term} (hss : ∀ s ∈ ss, s.isGround = true)
    (h : u.unifyArgs ss ts b = .ok (some c)) : c.FilledFrom b (b.Fill ss ts) := by
  refine ((moves_of_unifyArgs hu hb h).fills hb (.refl b)
    ⟨fun s t hst => ?_, fun s t hst x hx => ?_, fun x v hv => .inl hv⟩).entries
  · have hs := (List.of_mem_zip hst).1
    exact ⟨hss s hs, s, hs, .self⟩
  · exact ⟨t, (List.of_mem_zip hst).2, x, hx, .refl⟩

/-! ## Instances of heads -/

namespace Goal

/-- A positive goal of a user-defined predicate. -/
def IsUser (g : Goal) : Prop :=
  g.negated = false ∧ isBuiltin g.predicate = false

/-- The substitution makes the goal an instance of the head of a fact or rule of its predicate. -/
def MatchedBy (kb : KnowledgeBase) (θ : String → Term) (g : Goal) : Prop :=
  (∃ f ∈ kb.factsFor g.predicate, ∃ σ, g.args.map (Term.apply θ) = f.args.map (Term.apply σ)) ∨
    ∃ r ∈ kb.rulesFor g.predicate, ∃ σ, g.args.map (Term.apply θ) = r.head.args.map (Term.apply σ)

end Goal

theorem Fact.isGround_of_mem_args {f : Fact} (h : f.isGround = true) :
    ∀ a ∈ f.args, a.isGround = true := by
  rwa [isGround, Term.isGroundAll_eq, List.all_eq_true] at h

namespace Search

variable {kb : KnowledgeBase} {u : Unifier} {g : Goal} {gs : List Goal} {f : Fact} {b c : Bindings}
  {θ : String → Term}

namespace OnlyFact

theorem isUser (h : OnlyFact kb g f) : g.IsUser :=
  ⟨h.positive, h.user⟩

/-- The instance can only be one of the only fact. -/
theorem exists_apply_eq (h : OnlyFact kb g f) (hg : g.MatchedBy kb θ) :
    ∃ σ, g.args.map (Term.apply θ) = f.args.map (Term.apply σ) := by
  rcases hg with ⟨f', hf', hσ⟩ | ⟨r, hr, _⟩
  · rw [h.facts, List.mem_singleton] at hf'
    exact hf' ▸ hσ
  · simp [h.rules] at hr

theorem arity_eq (h : OnlyFact kb g f) (hg : g.MatchedBy kb θ) : f.arity = g.arity := by
  obtain ⟨σ, hσ⟩ := h.exists_apply_eq hg
  simpa [Fact.arity, Goal.arity] using (congrArg List.length hσ).symm

theorem apply_eq (h : OnlyFact kb g f) (hf : f.isGround = true) (hg : g.MatchedBy kb θ) :
    f.args.map (Term.apply θ) = g.args.map (Term.apply θ) := by
  obtain ⟨σ, hσ⟩ := h.exists_apply_eq hg
  rw [hσ, Fact.map_apply_of_isGround hf, Fact.map_apply_of_isGround hf]

end OnlyFact

/-! ## What a propagation leaves -/

/-- Unbound arguments are those whose instance is a variable. -/
theorem hasUnbound_eq (hb : b.Acyclic) (g : Goal) :
    hasUnbound g b = g.args.any fun t => (t.apply b.image).isVar := by
  rw [hasUnbound]
  exact congrArg (List.any g.args) (funext hb.isVar_resolve)

theorem hasUnbound_of_extends (hb : b.Acyclic) (hc : c.Acyclic) (hext : c.Extends b)
    (h : hasUnbound g b = false) : hasUnbound g c = false := by
  rw [hasUnbound_eq hb, List.any_eq_false] at h
  rw [hasUnbound_eq hc, List.any_eq_false]
  intro t ht
  rw [← hb.apply_image_of_extends hc hext]
  have hne := h t ht
  generalize t.apply b.image = s at hne
  cases s with
  | var x => simp [Term.isVar] at hne
  | compound f args => rw [Term.apply_compound]; simp [Term.isVar]
  | _ => simp [Term.isVar]

/-- Unification with a ground fact leaves no argument unbound. -/
theorem hasUnbound_of_unifyArgs (hu : u.occursCheck = true) (hb : b.Acyclic)
    (hf : f.isGround = true) (h : u.unifyArgs f.args g.args b = .ok (some c)) :
    hasUnbound g c = false := by
  have hc : c.Acyclic := (Unifier.moves_of_unifyArgs hu hb h).acyclic hb
  have halike := Unifier.forall₂_alike_of_unifyArgs hu hb h hc (.refl c)
  rw [Fact.map_apply_of_isGround hf, List.forall₂_map_right_iff] at halike
  rw [hasUnbound_eq hc, List.any_eq_false]
  intro t ht
  obtain ⟨s, hs, hst⟩ := exists_left_of_mem halike ht
  have hne := Term.ne_var_of_isGround (Fact.isGround_of_mem_args hf s hs)
  generalize t.apply c.image = t' at hst
  cases hst with
  | refl =>
      cases s with
      | var x => exact (hne x rfl).elim
      | _ => simp [Term.isVar]
  | float | compound => simp [Term.isVar]

theorem Skips.of_extends (h : Skips kb b g) (hb : b.Acyclic) (hc : c.Acyclic) (hext : c.Extends b) :
    Skips kb c g := fun f honly =>
  ⟨(h f honly).1, fun hground => hasUnbound_of_extends hb hc hext ((h f honly).2 hground)⟩

theorem propagate_of_skips (u : Unifier) (h : ∀ g ∈ gs, Skips kb b g) :
    propagate kb u gs b = .ok (some b) := by
  induction gs with
  | nil => rfl
  | cons g gs ih =>
      obtain ⟨hg, hgs⟩ := List.forall_mem_cons.mp h
      rcases propagate_cons kb u g gs b with ⟨_, heq⟩ | ⟨⟨f, honly, harity⟩, _⟩ |
        ⟨f, honly, ⟨hground, hunbound⟩, _⟩
      · rw [heq, ih hgs]
      · exact (harity (hg f honly).1).elim
      · simp [(hg f honly).2 hground] at hunbound

/-- After a propagation there is nothing left to do for any of the goals. -/
theorem skips_of_propagate (hu : u.occursCheck = true) (hb : b.Acyclic)
    (h : propagate kb u gs b = .ok (some c)) : ∀ g ∈ gs, Skips kb c g := by
  induction gs generalizing b with
  | nil => simp
  | cons g gs ih =>
      rcases propagate_cons kb u g gs b
        with ⟨hskips, heq⟩ | ⟨_, heq⟩ | ⟨f, honly, ⟨hground, _⟩, heq⟩
      · rw [heq] at h
        obtain ⟨hext, hc⟩ := sound_of_propagate hu hb h
        exact List.forall_mem_cons.mpr ⟨hskips.of_extends hb hc hext, ih hb h⟩
      · simp [heq] at h
      · rw [heq] at h
        split at h
        · simp at h
        · simp at h
        · next b' hunify =>
          have hb' : b'.Acyclic := (Unifier.moves_of_unifyArgs hu hb hunify).acyclic hb
          obtain ⟨hext, hc⟩ := sound_of_propagate hu hb' h
          have hskips : Skips kb b' g := by
            intro f' honly'
            obtain rfl := honly.unique honly'
            exact ⟨Unifier.length_eq_of_unifyArgs hu hb hunify, fun _ =>
              hasUnbound_of_unifyArgs hu hb hground hunify⟩
          exact List.forall_mem_cons.mpr ⟨hskips.of_extends hb' hc hext, ih hb' h⟩

/-- The variables that propagation may bind, and the values that it may give them. -/
def Supplied (kb : KnowledgeBase) (gs : List Goal) (b : Bindings) (x : String) (v : Term) : Prop :=
  ∃ g ∈ gs, ∃ f, OnlyFact kb g f ∧ b.Fill f.args g.args x v

theorem filledFrom_of_propagate (hu : u.occursCheck = true) (hb : b.Acyclic)
    (h : propagate kb u gs b = .ok (some c)) : c.FilledFrom b (Supplied kb gs b) := by
  have hground : ∀ x v, Supplied kb gs b x v → v.isGround = true :=
    fun _ _ ⟨_, _, _, _, hfill⟩ => hfill.ground
  have hkept : c.Extends b ∧ c.Acyclic ∧ c.FilledFrom b (Supplied kb gs b) := by
    refine propagate_keeps (motive := fun c => c.Extends b ∧ c.Acyclic ∧
      c.FilledFrom b (Supplied kb gs b)) h ⟨.refl b, hb, fun _ _ => .inl⟩ ?_
    rintro g hg f honly hf b₁ c₁ ⟨hext, hb₁, hfilled⟩ hunify
    have hmoves := Unifier.moves_of_unifyArgs hu hb₁ hunify
    refine ⟨(hmoves.extends_bindings hb₁).trans hext, hmoves.acyclic hb₁, fun x v hv => ?_⟩
    rcases Unifier.filledFrom_of_unifyArgs hu hb₁ (Fact.isGround_of_mem_args hf) hunify x v hv with
      hold | hfill
    · exact hfilled x v hold
    · exact .inr ⟨g, hg, f, honly, hfilled.fill hground hext hfill⟩
  exact hkept.2.2

/-- All floating-point leaves of goals, bindings and stored facts are finite. -/
structure AllFinite (kb : KnowledgeBase) (gs : List Goal) (b : Bindings) : Prop where
  facts : ∀ f ∈ kb.facts.all, ∀ a ∈ f.args, a.isFinite = true
  goals : ∀ g ∈ gs, ∀ a ∈ g.args, a.isFinite = true
  values : b.Values fun v => v.isFinite = true

/-- A solution of the bindings that matches the goals survives, and propagation does not give up. -/
theorem propagate_of_matchedBy (hu : u.occursCheck = true) (hb : b.Acyclic)
    (hfin : AllFinite kb gs b) (hθ : b.SolvedBy θ) (hgs : ∀ g ∈ gs, g.IsUser → g.MatchedBy kb θ)
    {o : Option Bindings} (h : propagate kb u gs b = .ok o) : ∃ c, o = some c ∧ c.SolvedBy θ := by
  have hfacts : ∀ g f, OnlyFact kb g f → ∀ a ∈ f.args, a.isFinite = true := by
    intro g f honly
    have hmem : f ∈ kb.factsFor g.predicate := by simp [honly.facts]
    exact hfin.facts f (KnowledgeBase.mem_facts_of_mem_factsFor hmem)
  have hcases := propagate_cases h (motive := fun c =>
    c.Acyclic ∧ (c.Values fun v => v.isFinite = true) ∧ c.SolvedBy θ) ⟨hb, hfin.values, hθ⟩ ?_
  · rcases hcases with
      ⟨c, hc, _, _, hsolved⟩ | ⟨_, g, hg, f, b₁, honly, ⟨hb₁, hfin₁, hθ₁⟩, hrefused⟩
    · exact ⟨c, hc, hsolved⟩
    · have hmatched := hgs g hg honly.isUser
      rcases hrefused with harity | ⟨hground, hunify⟩
      · exact (harity (honly.arity_eq hmatched)).elim
      · obtain ⟨c, hrun, _⟩ := Unifier.exists_runArgs_eq_unified hu hb₁ (hfacts g f honly)
          (hfin.goals g hg) hfin₁ hθ₁ (honly.apply_eq hground hmatched)
        simpa using Unify.eq_of_conclude hrun hunify
  · rintro g hg f honly hground b₁ c₁ ⟨hb₁, hfin₁, hθ₁⟩ hunify
    have hmoves := Unifier.moves_of_unifyArgs hu hb₁ hunify
    have heq := honly.apply_eq hground (hgs g hg honly.isUser)
    refine ⟨hmoves.acyclic hb₁, (hmoves.all Term.hereditary_isFinite ⟨fun s t hst => ?_, hfin₁⟩).2,
      (hmoves.solvedBy hb₁ ⟨hθ₁, fun s t hst => Unify.zip_apply_eq heq hst⟩).1⟩
    obtain ⟨hs, ht⟩ := List.of_mem_zip hst
    exact ⟨hfacts g f honly s hs, hfin.goals g hg t ht⟩

end Search

namespace Evaluator

open Search

/-- With the occurs check and finite floating-point leaves, propagation neither loses nor invents
answers. Where it returns bindings, these extend the given ones and stay acyclic; what is new are
variables that positive goals of user-defined predicates reach, with ground parts of the only facts
of these goals as values; all solutions of the given bindings that match the goals remain, no goal
with an only fact is left to be filled in, and a second propagation changes nothing. Where it gives
up there is no such solution. The only fault is an integer without a written form. -/
theorem propagate_exact {ev : Evaluator} {gs : List Goal} {b : Bindings}
    (hu : ev.options.unifier.occursCheck = true) (hb : b.Acyclic) (hfin : AllFinite ev.kb gs b) :
    (∀ c, ev.propagate gs b = .ok (some c) →
      c.Extends b ∧ c.Acyclic ∧
      (∀ x v, c.get? x = some v → b.get? x = some v ∨
        ∃ g ∈ gs, ∃ f, OnlyFact ev.kb g f ∧ b.Fill f.args g.args x v) ∧
      (∀ θ, b.SolvedBy θ → (∀ g ∈ gs, g.IsUser → g.MatchedBy ev.kb θ) → c.SolvedBy θ) ∧
      (∀ g ∈ gs, Skips ev.kb c g) ∧
      ev.propagate gs c = .ok (some c)) ∧
    (ev.propagate gs b = .ok none →
      ∀ θ, b.SolvedBy θ → ¬ ∀ g ∈ gs, g.IsUser → g.MatchedBy ev.kb θ) ∧
    ∀ e, ev.propagate gs b = .error e → e = .unwritable := by
  refine ⟨fun c h => ?_, fun h θ hθ hgs => ?_, fun e h => ?_⟩
  · obtain ⟨hext, hc⟩ := sound_of_propagate hu hb h
    have hskips := skips_of_propagate hu hb h
    refine ⟨hext, hc, filledFrom_of_propagate hu hb h, fun θ hθ hgs => ?_, hskips,
      propagate_of_skips _ hskips⟩
    obtain ⟨c', hc', hsolved⟩ := propagate_of_matchedBy hu hb hfin hθ hgs h
    exact Option.some.inj hc' ▸ hsolved
  · obtain ⟨c, hc, _⟩ := propagate_of_matchedBy hu hb hfin hθ hgs h
    simp at hc
  · exact (fault_of_propagate h).resolve_right fun ⟨_, hcyclic⟩ => hcyclic ⟨hu, hb⟩

/-- The first goal fills in a value that is bound in part, and with it the goal behind a negation
and a comparison; the last goal has a rule, so it is passed over. -/
theorem propagate_exact_boxes :
    let ev : Evaluator := { kb := {
      facts := ⟨[("box", [⟨"box", [.compound "pair" [.atom "red", .atom "red"], .atom "ann"]⟩]),
        ("age", [⟨"age", [.atom "ann", .float 30.5]⟩]),
        ("knows", [⟨"knows", [.atom "ann", .var "P"]⟩])]⟩
      rules := ⟨[("knows", [⟨⟨"knows", [.var "P", .var "P"]⟩, []⟩])]⟩ } }
    let gs : List Goal :=
      [⟨"box", [.var "Z", .var "X"], false⟩, ⟨"likes", [.var "X", .atom "bob"], true⟩,
      ⟨"<", [.var "Y", .int 40], false⟩, ⟨"age", [.var "X", .var "Y"], false⟩,
      ⟨"knows", [.var "X", .var "K"], false⟩]
    let b := (∅ : Bindings).insert "Z" (.compound "pair" [.var "V", .var "W"])
    let c :=
      (((b.insert "V" (.atom "red")).insert "W" (.atom "red")).insert "X" (.atom "ann")).insert
      "Y" (.float 30.5)
    b.Acyclic ∧ AllFinite ev.kb gs b ∧ ev.propagate gs b = .ok (some c) ∧
      c.Extends b ∧ c.Acyclic ∧
      (∀ x v, c.get? x = some v → b.get? x = some v ∨
        ∃ g ∈ gs, ∃ f, OnlyFact ev.kb g f ∧ b.Fill f.args g.args x v) ∧
      (∀ θ, b.SolvedBy θ → (∀ g ∈ gs, g.IsUser → g.MatchedBy ev.kb θ) → c.SolvedBy θ) ∧
      (∀ g ∈ gs, Skips ev.kb c g) ∧
      ev.propagate gs c = .ok (some c) := by
  intro ev gs b c
  have hb : b.Acyclic := Bindings.acyclic_empty.insert_of_occurs? (Bindings.get?_empty "Z") rfl
  have hfin : AllFinite ev.kb gs b :=
    ⟨by decide, by decide, (Bindings.values_empty _).insert "Z" rfl⟩
  have hu : ev.options.unifier.occursCheck = true := rfl
  have hprop : ev.propagate gs b = .ok (some c) := rfl
  exact ⟨hb, hfin, hprop, (propagate_exact hu hb hfin).1 c hprop⟩

end Evaluator

end Clausal
