import Clausal.Proofs.Bindings.MapVars
import Clausal.Proofs.Search.Renaming

/-!
# When renaming is simultaneous

A clause is renamed by substituting for each of its variables the name with a suffix. Substitution
follows chains, so a variable whose renamed form is another variable of the clause ends where that
one ends. Names grow along a chain, so every chain has an end. Hence the copy has each variable
replaced by its renamed form, and no two of them become the same, exactly if no renamed form is a
variable of the clause.
-/

namespace Clausal

/-! ## Renaming as a substitution -/

/-- The bindings by which variables are renamed: each is bound to its name with a suffix. -/
def suffixBindings (names : List String) (suffix : String) : Bindings :=
  .ofList (names.map fun x => (x, .var (suffixed suffix x)))

theorem Bindings.entries_ofList (es : List (String × Term)) : (ofList es).entries = es.reverse := by
  have hfold : ∀ (b : Bindings) (es : List (String × Term)),
      (es.foldl (fun b e => b.insert e.1 e.2) b).entries = es.reverse ++ b.entries := by
    intro b es
    induction es generalizing b with
    | nil => rfl
    | cons e es ih => simp [ih]
  simpa [ofList] using hfold ∅ es

section Chains

variable {names : List String} {suffix x y : String}

theorem count_suffixBindings (names : List String) (suffix : String) :
    (suffixBindings names suffix).count = names.length := by
  rw [Bindings.count_eq, suffixBindings, Bindings.entries_ofList, List.length_reverse,
    List.length_map]

theorem get?_suffixBindings (names : List String) (suffix x : String) :
    (suffixBindings names suffix).get? x =
      if x ∈ names then some (.var (suffixed suffix x)) else none := by
  have hlookup : ∀ names : List String,
      (names.map fun y => (y, Term.var (suffixed suffix y))).lookup x =
      if x ∈ names then some (.var (suffixed suffix x)) else none := by
    intro names
    induction names with
    | nil => rfl
    | cons y names ih =>
        by_cases hxy : x = y
        · simp [hxy]
        · rw [List.map_cons, List.lookup_cons, beq_false_of_ne hxy, ih]
          simp [hxy]
  rw [Bindings.get?_eq_lookup, suffixBindings, Bindings.entries_ofList, ← List.map_reverse, hlookup]
  simp only [List.mem_reverse]

theorem length_lt_suffixed (suffix x : String) : x.length < (suffixed suffix x).length := by
  rw [← String.length_toList, ← String.length_toList, toList_suffixed, List.length_append,
    List.length_cons]
  omega

theorem acyclic_suffixBindings (names : List String) (suffix : String) :
    (suffixBindings names suffix).Acyclic := by
  have hgrows : ∀ x y, (suffixBindings names suffix).Leads x y → x.length < y.length := by
    rintro x y ⟨t, ht, hy⟩
    rw [get?_suffixBindings] at ht
    split at ht
    · obtain rfl := Option.some.inj ht
      obtain rfl : y = suffixed suffix x := by simpa [Term.vars] using hy
      exact length_lt_suffixed suffix x
    · cases ht
  have hchain : ∀ x y, Relation.TransGen (suffixBindings names suffix).Leads x y →
      x.length < y.length := by
    intro x y h
    induction h with
    | single h => exact hgrows _ _ h
    | tail _ h ih => exact ih.trans (hgrows _ _ h)
  exact fun x h => Nat.lt_irrefl _ (hchain x x h)

theorem chase_suffixBindings {n : Nat} {t : Term}
    (h : (suffixBindings names suffix).chase (n + 1) x = some t) :
    t = .var (renamed names suffix n x) := by
  induction n generalizing x with
  | zero =>
      rw [Bindings.chase, get?_suffixBindings] at h
      split at h
      · exact (Option.some.inj h).symm
      · cases h
      · next u hu hget =>
        split at hget
        · exact (hu _ (Option.some.inj hget).symm).elim
        · cases hget
  | succ n ih =>
      rw [Bindings.chase, get?_suffixBindings] at h
      by_cases hx : x ∈ names
      · simp only [if_pos hx] at h
        rw [renamed, if_pos (by simpa using hx)]
        exact ih h
      · simp only [if_neg hx] at h
        rw [renamed, if_neg (by simpa using hx)]
        exact (Option.some.inj h).symm

theorem image_suffixBindings (names : List String) (suffix x : String) :
    (suffixBindings names suffix).image x = .var (renameVar names suffix x) := by
  have hb := acyclic_suffixBindings names suffix
  have hchase := hb.chase_eq (Nat.lt_succ_of_le ((suffixBindings names suffix).rank_le_count x))
  rw [count_suffixBindings] at hchase
  exact Bindings.image_eq_of_deref_var (chase_suffixBindings hchase)

theorem renameVar_of_mem (h : x ∈ names) :
    renameVar names suffix x = renameVar names suffix (suffixed suffix x) := by
  have hget : (suffixBindings names suffix).get? x = some (.var (suffixed suffix x)) := by
    rw [get?_suffixBindings, if_pos h]
  have himage := (acyclic_suffixBindings names suffix).image_of_bound hget
  rw [Term.apply_var, image_suffixBindings, image_suffixBindings] at himage
  exact Term.var.inj himage

theorem renameVar_of_not_mem (h : x ∉ names) : renameVar names suffix x = x := by
  have hget : (suffixBindings names suffix).get? x = none := by rw [get?_suffixBindings, if_neg h]
  have himage := Bindings.image_of_unbound hget
  rw [image_suffixBindings] at himage
  exact Term.var.inj himage

/-- Along the chains of renamed forms, from their ends backwards. -/
theorem suffix_induction {motive : String → Prop} (names : List String) (suffix : String)
    (stop : ∀ x, x ∉ names → motive x) (step : ∀ x ∈ names, motive (suffixed suffix x) → motive x)
    (x : String) : motive x := by
  induction x using (acyclic_suffixBindings names suffix).induction with
  | unbound x hx =>
      refine stop x fun hmem => ?_
      simp [get?_suffixBindings, hmem] at hx
  | bound x t hx ih =>
      rw [get?_suffixBindings] at hx
      split at hx
      · next hmem =>
        obtain rfl := Option.some.inj hx
        exact step x hmem (ih _ (by simp [Term.vars]))
      · cases hx

theorem renameVar_not_mem (names : List String) (suffix x : String) :
    renameVar names suffix x ∉ names := by
  induction x using suffix_induction names suffix with
  | stop x hx => rwa [renameVar_of_not_mem hx]
  | step x hx ih => rwa [renameVar_of_mem hx]

theorem exists_renameVar_eq_suffixed (hx : x ∈ names) :
    ∃ v, renameVar names suffix x = suffixed suffix v := by
  revert hx
  induction x using suffix_induction names suffix with
  | stop x hx => exact fun hmem => (hx hmem).elim
  | step x hx ih =>
      intro _
      rw [renameVar_of_mem hx]
      by_cases hmem : suffixed suffix x ∈ names
      · exact ih hmem
      · exact ⟨x, renameVar_of_not_mem hmem⟩

end Chains

/-! ## Clauses -/

section MapVars

variable {ρ σ : String → String}

theorem Term.map_apply_var_comp (ρ : String → String) (ts : List Term) :
    ts.map (apply fun x => .var (ρ x)) = mapVarsAll ρ ts := by
  rw [mapVarsAll_eq]
  exact List.map_congr_left fun t _ => apply_var_comp ρ t

theorem Rule.vars_mapVars (ρ : String → String) (r : Rule) : (r.mapVars ρ).vars = r.vars.map ρ := by
  have hgoals : Goal.vars ∘ Goal.mapVars ρ = List.map ρ ∘ Goal.vars :=
    funext fun g => Term.varsAll_mapVarsAll ρ g.args
  simp only [vars, List.map_append, List.map_flatMap, mapVars, List.flatMap_map]
  exact congrArg₂ _ (Term.varsAll_mapVarsAll ρ r.head.args)
    (List.flatMap_congr fun g _ => congrFun hgoals g)

theorem Rule.mapVars_congr {r : Rule} (h : ∀ x ∈ r.vars, ρ x = σ x) :
    r.mapVars ρ = r.mapVars σ := by
  have hhead : r.head.mapVars ρ = r.head.mapVars σ :=
    congrArg (Fact.mk r.head.predicate)
      (Term.mapVarsAll_congr fun x hx => h x (mem_vars.mpr (.inl hx)))
  have hbody : r.body.map (Goal.mapVars ρ) = r.body.map (Goal.mapVars σ) := by
    refine List.map_congr_left fun g hg => ?_
    have hargs : Term.mapVarsAll ρ g.args = Term.mapVarsAll σ g.args :=
      Term.mapVarsAll_congr fun x hx => h x (mem_vars.mpr (.inr ⟨g, hg, hx⟩))
    rw [Goal.mapVars, hargs]
    rfl
  rw [mapVars, hhead, hbody]
  rfl

variable {b : Bindings} (hb : b.Acyclic) (hρ : ∀ x, b.image x = .var (ρ x))

include hb hρ

theorem Fact.substitute?_eq_mapVars (f : Fact) : f.substitute? b = some (f.mapVars ρ) := by
  rw [substitute?, hb.substituteAll?_eq, funext hρ, Term.map_apply_var_comp]
  rfl

theorem Rule.substitute?_eq_mapVars (r : Rule) : r.substitute? b = some (r.mapVars ρ) := by
  have hgoals : Goal.apply b.image = Goal.mapVars ρ := by
    funext g
    rw [Goal.apply, funext hρ, Term.map_apply_var_comp]
    rfl
  rw [substitute?, Fact.substitute?_eq_mapVars hb hρ, Goal.mapM_substitute?_eq hb, hgoals]
  rfl

end MapVars

namespace Clause

/-- The variables of a clause from left to right, with repetitions. -/
def vars : Clause → List String
  | fact f => f.vars
  | rule r => r.vars

def mapVars (ρ : String → String) : Clause → Clause
  | fact f => fact (f.mapVars ρ)
  | rule r => rule (r.mapVars ρ)

def substitute? (b : Bindings) : Clause → Option Clause
  | fact f => (f.substitute? b).map fact
  | rule r => (r.substitute? b).map rule

def rename (suffix : String) : Clause → Clause
  | fact f => fact (f.rename suffix)
  | rule r => rule (r.rename suffix)

variable {ρ σ : String → String} {c : Clause} {suffix : String}

theorem vars_mapVars (ρ : String → String) (c : Clause) : (c.mapVars ρ).vars = c.vars.map ρ := by
  cases c with
  | fact f => exact Term.varsAll_mapVarsAll ρ f.args
  | rule r => exact r.vars_mapVars ρ

theorem mapVars_congr (h : ∀ x ∈ c.vars, ρ x = σ x) : c.mapVars ρ = c.mapVars σ := by
  cases c with
  | fact f => exact congrArg (fun args => fact ⟨f.predicate, args⟩) (Term.mapVarsAll_congr h)
  | rule r => exact congrArg rule (Rule.mapVars_congr h)

theorem rename_eq (suffix : String) (c : Clause) :
    c.rename suffix = c.mapVars (renameVar c.vars.eraseDups suffix) := by
  cases c <;> rfl

theorem substitute?_suffixBindings (suffix : String) (c : Clause) :
    c.substitute? (suffixBindings c.vars.eraseDups suffix) = some (c.rename suffix) := by
  have hb := acyclic_suffixBindings c.vars.eraseDups suffix
  have himage := image_suffixBindings c.vars.eraseDups suffix
  cases c with
  | fact f => exact congrArg (Option.map fact) (f.substitute?_eq_mapVars hb himage)
  | rule r => exact congrArg (Option.map rule) (r.substitute?_eq_mapVars hb himage)

/-- No variable of the clause is the renamed form of another one. -/
def NoneRenamed (suffix : String) (c : Clause) : Prop :=
  ∀ x ∈ c.vars, ∀ y ∈ c.vars, y ≠ suffixed suffix x

theorem NoneRenamed.renameVar_eq (h : c.NoneRenamed suffix) {x : String} (hx : x ∈ c.vars) :
    renameVar c.vars.eraseDups suffix x = suffixed suffix x := by
  have hnew : suffixed suffix x ∉ c.vars.eraseDups := fun hmem =>
    h x hx _ (List.mem_eraseDups.mp hmem) rfl
  rw [renameVar_of_mem (List.mem_eraseDups.mpr hx), renameVar_of_not_mem hnew]

theorem noneRenamed_iff_rename_eq :
    c.NoneRenamed suffix ↔ c.rename suffix = c.mapVars (suffixed suffix) := by
  constructor
  · intro h
    rw [rename_eq]
    exact mapVars_congr fun x hx => h.renameVar_eq hx
  · intro h x hx y hy hxy
    have hvars : c.vars.map (renameVar c.vars.eraseDups suffix) = c.vars.map (suffixed suffix) := by
      rw [← vars_mapVars, ← vars_mapVars, ← rename_eq, h]
    -- what a variable is renamed to is not a variable of the clause
    refine renameVar_not_mem c.vars.eraseDups suffix x (List.mem_eraseDups.mpr ?_)
    rwa [List.map_inj_left.mp hvars x hx, ← hxy]

theorem renameVar_eq_of_eq_suffixed {x y : String} (hx : x ∈ c.vars) (hxy : y = suffixed suffix x) :
    renameVar c.vars.eraseDups suffix x = renameVar c.vars.eraseDups suffix y := by
  rw [hxy, renameVar_of_mem (List.mem_eraseDups.mpr hx)]

theorem noneRenamed_iff_injOn :
    c.NoneRenamed suffix ↔ Set.InjOn (renameVar c.vars.eraseDups suffix) {x | x ∈ c.vars} := by
  constructor
  · intro h x hx y hy hxy
    rw [h.renameVar_eq hx, h.renameVar_eq hy] at hxy
    exact suffixed_injective suffix hxy
  · intro h x hx y hy hxy
    have heq : x = y := h hx hy (renameVar_eq_of_eq_suffixed hx hxy)
    have hlt := length_lt_suffixed suffix x
    rw [← hxy, ← heq] at hlt
    exact Nat.lt_irrefl _ hlt

theorem exists_suffixed_of_mem_vars_rename {y : String} (hy : y ∈ (c.rename suffix).vars) :
    ∃ v, y = suffixed suffix v := by
  rw [rename_eq, vars_mapVars] at hy
  obtain ⟨x, hx, rfl⟩ := List.mem_map.mp hy
  exact exists_renameVar_eq_suffixed (List.mem_eraseDups.mpr hx)

/-- Substituting renamed forms comes to an end, and the result is a copy with renamed variables. All
variables are replaced by their renamed forms, and no two become the same, exactly if none is the
renamed form of another one; a variable and its renamed form, if both occur, become the same. In any
case all variables of the copy have the suffix. -/
theorem rename_simultaneous_iff (suffix : String) (c : Clause) :
    c.substitute? (suffixBindings c.vars.eraseDups suffix) = some (c.rename suffix) ∧
    ∃ ρ : String → String, c.rename suffix = c.mapVars ρ ∧
      (c.NoneRenamed suffix ↔ c.rename suffix = c.mapVars (suffixed suffix)) ∧
      (c.NoneRenamed suffix ↔ Set.InjOn ρ {x | x ∈ c.vars}) ∧
      (∀ x ∈ c.vars, ∀ y ∈ c.vars, y = suffixed suffix x → ρ x = ρ y) ∧
      ∀ y ∈ (c.rename suffix).vars, ∃ v, y = suffixed suffix v :=
  ⟨substitute?_suffixBindings suffix c, renameVar c.vars.eraseDups suffix, rename_eq suffix c,
    noneRenamed_iff_rename_eq, noneRenamed_iff_injOn,
    fun _ hx _ _ hxy => renameVar_eq_of_eq_suffixed hx hxy,
    fun _ hy => exists_suffixed_of_mem_vars_rename hy⟩

-- A chain of two: all three variables become one.
example :
    (rule ⟨⟨"p", [.var "X", .var "X#1#1"]⟩, [⟨"q", [.var "X#1"], true⟩]⟩ : Clause).rename "1" =
    rule ⟨⟨"p", [.var "X#1#1#1", .var "X#1#1#1"]⟩, [⟨"q", [.var "X#1#1#1"], true⟩]⟩ := by
  rfl

end Clause

end Clausal
