import Clausal.Proofs.Arithmetic
import Clausal.Proofs.KnowledgeBase
import Clausal.Search.Resolve

/-!
# Derivable goals

The declarative side of resolution. A goal is derivable from a knowledge base if it is an instance
of a fact, or of the head of a rule whose body is derivable under the same substitution, or if a
built-in predicate holds of its arguments. How closely arguments have to agree is a parameter: they
are equal, or alike up to close floating-point leaves. Negated goals are never derivable.
-/

namespace Clausal

theorem Fact.map_apply_of_isGround {f : Fact} (h : f.isGround = true) (θ : String → Term) :
    f.args.map (Term.apply θ) = f.args := by
  rw [isGround, Term.isGroundAll_eq, List.all_eq_true] at h
  calc f.args.map (Term.apply θ) = f.args.map id :=
        List.map_congr_left fun a ha => Term.apply_of_isGround (h a ha) θ
    _ = f.args := List.map_id _

namespace Goal

/-- The goal with every variable replaced. -/
def apply (θ : String → Term) (g : Goal) : Goal :=
  { g with args := g.args.map (Term.apply θ) }

@[simp] theorem predicate_apply (θ : String → Term) (g : Goal) :
    (g.apply θ).predicate = g.predicate := rfl

@[simp] theorem negated_apply (θ : String → Term) (g : Goal) : (g.apply θ).negated = g.negated :=
  rfl

@[simp] theorem args_apply (θ : String → Term) (g : Goal) :
    (g.apply θ).args = g.args.map (Term.apply θ) := rfl

@[simp] theorem arity_apply (θ : String → Term) (g : Goal) : (g.apply θ).arity = g.arity :=
  List.length_map _

theorem apply_congr {θ η : String → Term} {g : Goal} (h : ∀ x ∈ g.vars, θ x = η x) :
    g.apply θ = g.apply η := by
  have hargs : g.args.map (Term.apply θ) = g.args.map (Term.apply η) :=
    List.map_congr_left fun a ha => Term.apply_congr
      fun x hx => h x (Term.mem_varsAll.mpr ⟨a, ha, hx⟩)
  rw [apply, apply, hargs]

theorem apply_apply (σ θ : String → Term) (g : Goal) :
    (g.apply σ).apply θ = g.apply fun x => (σ x).apply θ := by
  have hargs : (g.args.map (Term.apply σ)).map (Term.apply θ) =
      g.args.map (Term.apply fun x => (σ x).apply θ) := by
    rw [List.map_map]
    exact List.map_congr_left fun a _ => Term.apply_apply σ θ a
  simp only [apply, hargs]

theorem apply_mapVars (r : String → String) (θ : String → Term) (g : Goal) :
    (g.mapVars r).apply θ = g.apply fun x => θ (r x) := by
  rw [apply, mapVars, apply, Term.map_apply_mapVarsAll]

/-- Under a solution nothing changes when the images are put in first. -/
theorem apply_image {b : Bindings} (hb : b.Acyclic) {θ : String → Term}
    (hθ : b.SolvedBy θ) (g : Goal) :
    (g.apply b.image).apply θ = g.apply θ := by
  rw [apply_apply]
  exact apply_congr fun x _ => hb.apply_image hθ (.var x)

theorem substitute?_eq {b : Bindings} (hb : b.Acyclic) (g : Goal) :
    g.substitute? b = some (g.apply b.image) := by
  rw [substitute?, hb.substituteAll?_eq]
  rfl

theorem mapM_substitute?_eq {b : Bindings} (hb : b.Acyclic) (goals : List Goal) :
    goals.mapM (fun g => g.substitute? b) = some (goals.map (apply b.image)) := by
  induction goals with
  | nil => rfl
  | cons g goals ih =>
      rw [List.mapM_cons, substitute?_eq hb, ih]
      rfl

end Goal

/-- What follows from the clauses that a knowledge base stores under the predicate of each goal. -/
inductive Derivable (kb : KnowledgeBase) (same : Term → Term → Prop) : Goal → Prop
  | fact {p : String} {f : Fact} {σ : String → Term} {args : List Term}
      (hp : isBuiltin p = false) (hf : f ∈ kb.factsFor p)
      (hargs : List.Forall₂ same (f.args.map (Term.apply σ)) args) :
      Derivable kb same { predicate := p, args }
  | rule {p : String} {r : Rule} {σ : String → Term} {args : List Term}
      (hp : isBuiltin p = false) (hr : r ∈ kb.rulesFor p)
      (hargs : List.Forall₂ same (r.head.args.map (Term.apply σ)) args)
      (hbody : ∀ g ∈ r.body, Derivable kb same (g.apply σ)) :
      Derivable kb same { predicate := p, args }
  | equal {s t : Term} (h : same s t) : Derivable kb same { predicate := "=", args := [s, t] }
  | compare {symbol : String} {c : Comparison} {s t : Term} {m n : Number}
      (hsymbol : Comparison.ofSymbol? symbol = some c) (hs : s.number? = some m)
      (ht : t.number? = some n) (h : c.holds m n = true) :
      Derivable kb same { predicate := symbol, args := [s, t] }
  | value {l e : Term} {n : Number} (he : (∅ : Bindings).evaluate e = .ok n)
      (hl : same l n.normalize.toTerm) : Derivable kb same { predicate := "is", args := [l, e] }

theorem isBuiltin_of_ofSymbol? {symbol : String} {c : Comparison}
    (h : Comparison.ofSymbol? symbol = some c) : isBuiltin symbol = true := by
  rw [Comparison.ofSymbol?.eq_def] at h
  split at h
  · rfl
  · rfl
  · rfl
  · rfl
  · simp at h

namespace Derivable

variable {kb : KnowledgeBase} {same : Term → Term → Prop} {g : Goal}

/-- A goal of a user-defined predicate is derivable by a clause. -/
theorem of_user (h : Derivable kb same g) (hg : isBuiltin g.predicate = false) :
    (∃ f ∈ kb.factsFor g.predicate, ∃ σ, List.Forall₂ same (f.args.map (Term.apply σ)) g.args) ∨
      ∃ r ∈ kb.rulesFor g.predicate, ∃ σ,
      List.Forall₂ same (r.head.args.map (Term.apply σ)) g.args ∧
        ∀ b ∈ r.body, Derivable kb same (b.apply σ) := by
  cases h with
  | fact _ hf hargs => exact .inl ⟨_, hf, _, hargs⟩
  | rule _ hr hargs hbody => exact .inr ⟨_, hr, _, hargs, hbody⟩
  | equal _ => simp [isBuiltin, Builtin.names] at hg
  | compare hsymbol => simp [isBuiltin_of_ofSymbol? hsymbol] at hg
  | value => simp [isBuiltin, Builtin.names] at hg

theorem of_equal (h : Derivable kb same g) (hg : g.predicate = "=") :
    ∃ s t, g.args = [s, t] ∧ same s t := by
  cases h with
  | fact hp | rule hp =>
      obtain rfl : _ = "=" := hg
      simp [isBuiltin, Builtin.names] at hp
  | equal hst => exact ⟨_, _, rfl, hst⟩
  | compare hsymbol =>
      obtain rfl : _ = "=" := hg
      simp [Comparison.ofSymbol?] at hsymbol
  | value => simp at hg

end Derivable

/-! ## Copies of clauses -/

namespace Search

/-- An instance of a copy is an instance of the fact. -/
theorem exists_apply_copyFact (mode : RenamingMode) (depth : Nat) (f : Fact) (p : Progress)
    (θ : String → Term) :
    ∃ σ, (copyFact mode depth f p).1.args.map (Term.apply θ) = f.args.map (Term.apply σ) := by
  rw [copyFact]
  split
  · exact ⟨θ, rfl⟩
  · let r := renameVar f.vars.eraseDups (p.nextSuffix mode depth).1
    exact ⟨fun x => θ (r x), Term.map_apply_mapVarsAll r θ f.args⟩

theorem exists_apply_copyRule (mode : RenamingMode) (depth : Nat) (r : Rule) (p : Progress)
    (θ : String → Term) :
    ∃ σ, (copyRule mode depth r p).1.head.args.map (Term.apply θ) =
        r.head.args.map (Term.apply σ) ∧
      (copyRule mode depth r p).1.body.map (Goal.apply θ) = r.body.map (Goal.apply σ) := by
  let ρ := renameVar r.vars.eraseDups (p.nextSuffix mode depth).1
  refine ⟨fun x => θ (ρ x), Term.map_apply_mapVarsAll ρ θ r.head.args, ?_⟩
  change (r.body.map (Goal.mapVars ρ)).map (Goal.apply θ) = _
  rw [List.map_map]
  exact List.map_congr_left fun g _ => Goal.apply_mapVars ρ θ g

end Search

end Clausal
