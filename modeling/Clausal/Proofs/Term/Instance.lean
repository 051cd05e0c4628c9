import Clausal.Bindings.Substitute
import Mathlib.Data.List.Forall2

/-!
# Instances of terms

A substitution is a total map from variable names to terms, and `Term.apply` replaces all variables
at once. Bindings are a finite, unapplied form of substitutions; this module has the part of the
theory that does not mention them. Terms nest through lists of arguments, so the functions on lists
of terms are first brought into the form of the usual list operations.
-/

namespace Clausal.Term

/-- Induction on terms: a compound term may assume the property of its arguments. -/
@[elab_as_elim, induction_eliminator]
theorem induct {motive : Term → Prop}
    (var : ∀ x, motive (.var x)) (atom : ∀ a, motive (.atom a)) (int : ∀ n, motive (.int n))
    (float : ∀ x, motive (.float x)) (str : ∀ s, motive (.str s))
    (compound : ∀ f args, (∀ a ∈ args, motive a) → motive (.compound f args)) (t : Term) :
    motive t := by
  refine @Term.rec motive (fun ts => ∀ a ∈ ts, motive a) var atom int float str compound ?_ ?_ t
  · intro a ha
    simp at ha
  · intro t ts ht hts a ha
    rcases List.mem_cons.mp ha with rfl | ha
    · exact ht
    · exact hts a ha

theorem var_or_nonvar (t : Term) : (∃ x, t = .var x) ∨ ∀ x, t ≠ .var x := by
  cases t with
  | var x => exact .inl ⟨x, rfl⟩
  | _ => simp

/-! ## Functions on lists of terms -/

theorem varsAll_eq (ts : List Term) : varsAll ts = ts.flatMap vars := by
  induction ts with
  | nil => rfl
  | cons t ts ih => simp [varsAll, ih]

theorem mem_varsAll {x : String} {ts : List Term} : x ∈ varsAll ts ↔ ∃ t ∈ ts, x ∈ t.vars := by
  simp [varsAll_eq]

theorem mem_vars_compound {x f : String} {args : List Term} :
    x ∈ (compound f args).vars ↔ ∃ a ∈ args, x ∈ a.vars := by
  rw [vars, mem_varsAll]

theorem isGroundAll_eq (ts : List Term) : isGroundAll ts = ts.all isGround := by
  induction ts with
  | nil => rfl
  | cons t ts ih => simp [isGroundAll, ih]

theorem mapVarsAll_eq (r : String → String) (ts : List Term) :
    mapVarsAll r ts = ts.map (mapVars r) := by
  induction ts with
  | nil => rfl
  | cons t ts ih => simp [mapVarsAll, ih]

/-! ## Substitutions -/

mutual

/-- The instance of a term under a substitution: every variable is replaced at once. -/
def apply (θ : String → Term) : Term → Term
  | .var x => θ x
  | .compound f args => .compound f (applyAll θ args)
  | t => t

def applyAll (θ : String → Term) : List Term → List Term
  | [] => []
  | t :: ts => apply θ t :: applyAll θ ts

end

@[simp] theorem applyAll_eq (θ : String → Term) (ts : List Term) :
    applyAll θ ts = ts.map (apply θ) := by
  induction ts with
  | nil => rfl
  | cons t ts ih => simp [applyAll, ih]

@[simp] theorem apply_var (θ : String → Term) (x : String) : (var x).apply θ = θ x := rfl

@[simp] theorem apply_atom (θ : String → Term) (a : String) : (atom a).apply θ = .atom a := rfl

@[simp] theorem apply_int (θ : String → Term) (n : Int) : (int n).apply θ = .int n := rfl

@[simp] theorem apply_float (θ : String → Term) (x : Float) : (float x).apply θ = .float x := rfl

@[simp] theorem apply_str (θ : String → Term) (s : String) : (str s).apply θ = .str s := rfl

@[simp] theorem apply_compound (θ : String → Term) (f : String) (args : List Term) :
    (compound f args).apply θ = .compound f (args.map (apply θ)) := by
  rw [apply, applyAll_eq]

theorem apply_ne_var {t : Term} (h : ∀ x, t ≠ .var x) (θ : String → Term) (x : String) :
    t.apply θ ≠ .var x := by
  cases t with
  | var y => exact (h y rfl).elim
  | _ => simp

/-- An instance depends only on what the variables of the term are replaced by. -/
theorem apply_congr {θ η : String → Term} {t : Term} (h : ∀ x ∈ t.vars, θ x = η x) :
    t.apply θ = t.apply η := by
  induction t with
  | var x => exact h x (by simp [vars])
  | atom _ | int _ | float _ | str _ => rfl
  | compound f args ih =>
      simp only [apply_compound, compound.injEq, true_and]
      refine List.map_congr_left fun a ha => ih a ha fun x hx => ?_
      exact h x (mem_vars_compound.mpr ⟨a, ha, hx⟩)

theorem apply_apply (σ θ : String → Term) (t : Term) :
    (t.apply σ).apply θ = t.apply fun x => (σ x).apply θ := by
  induction t with
  | var _ | atom _ | int _ | float _ | str _ => rfl
  | compound f args ih =>
      simp only [apply_compound, List.map_map, compound.injEq, true_and]
      exact List.map_congr_left ih

theorem apply_var_eq (t : Term) : t.apply var = t := by
  induction t with
  | var _ | atom _ | int _ | float _ | str _ => rfl
  | compound f args ih =>
      rw [apply_compound, List.map_congr_left ih, List.map_id']

theorem apply_mapVars (r : String → String) (θ : String → Term) (t : Term) :
    (t.mapVars r).apply θ = t.apply fun x => θ (r x) := by
  induction t with
  | var _ | atom _ | int _ | float _ | str _ => rfl
  | compound f args ih =>
      simp only [mapVars, mapVarsAll_eq, apply_compound, List.map_map, compound.injEq, true_and]
      exact List.map_congr_left ih

/-- Renaming variables is replacing them by variables. -/
theorem apply_var_comp (r : String → String) (t : Term) :
    t.apply (fun x => .var (r x)) = t.mapVars r := by
  rw [← apply_var_eq (t.mapVars r), apply_mapVars]

theorem map_apply_mapVarsAll (r : String → String) (θ : String → Term) (ts : List Term) :
    (mapVarsAll r ts).map (apply θ) = ts.map (apply fun x => θ (r x)) := by
  rw [mapVarsAll_eq, List.map_map]
  exact List.map_congr_left fun t _ => apply_mapVars r θ t

theorem mem_vars_apply {θ : String → Term} {x : String} {t : Term} :
    x ∈ (t.apply θ).vars ↔ ∃ y ∈ t.vars, x ∈ (θ y).vars := by
  induction t with
  | var y => simp [vars]
  | atom _ | int _ | float _ | str _ => simp [vars]
  | compound f args ih =>
      simp only [apply_compound, mem_vars_compound, List.mem_map]
      constructor
      · rintro ⟨_, ⟨a, ha, rfl⟩, hx⟩
        obtain ⟨y, hy, hxy⟩ := (ih a ha).mp hx
        exact ⟨y, ⟨a, ha, hy⟩, hxy⟩
      · rintro ⟨y, ⟨a, ha, hy⟩, hxy⟩
        exact ⟨_, ⟨a, ha, rfl⟩, (ih a ha).mpr ⟨y, hy, hxy⟩⟩

theorem any_mem_vars (θ : String → Term) (x : String) (t : Term) :
    (t.vars.any fun y => decide (x ∈ (θ y).vars)) = decide (x ∈ (t.apply θ).vars) := by
  rw [Bool.eq_iff_iff, List.any_eq_true, decide_eq_true_eq, mem_vars_apply]
  simp only [decide_eq_true_eq]

theorem mem_vars_mapVars {r : String → String} {x : String} {t : Term} :
    x ∈ (t.mapVars r).vars ↔ ∃ y ∈ t.vars, x = r y := by
  rw [← apply_var_comp, mem_vars_apply]
  simp only [vars, List.mem_singleton]

theorem isGround_iff {t : Term} : t.isGround = true ↔ ∀ x, x ∉ t.vars := by
  induction t with
  | var x => simp [isGround, vars]
  | atom _ | int _ | float _ | str _ => simp [isGround, vars]
  | compound f args ih =>
      simp only [isGround, isGroundAll_eq, List.all_eq_true, mem_vars_compound, not_exists, not_and]
      exact ⟨fun h x a ha => (ih a ha).mp (h a ha) x, fun h a ha => (ih a ha).mpr fun x => h x a ha⟩

theorem apply_of_isGround {t : Term} (h : t.isGround = true) (θ : String → Term) :
    t.apply θ = t := by
  have hvars := isGround_iff.mp h
  calc t.apply θ = t.apply var := apply_congr fun x hx => (hvars x hx).elim
    _ = t := apply_var_eq t

theorem isGround_of_number? {t : Term} {n : Number} (h : t.number? = some n) :
    t.isGround = true := by
  cases t with
  | int _ | float _ => rfl
  | _ => simp [number?] at h

theorem substAll?_of_forall {look : String → Option Term} {θ : String → Term} {ts : List Term}
    (h : ∀ t ∈ ts, t.subst? look = some (t.apply θ)) :
    substAll? look ts = some (ts.map (apply θ)) := by
  induction ts with
  | nil => rfl
  | cons t ts ih =>
      have hts := ih fun u hu => h u (List.mem_cons_of_mem t hu)
      simp [substAll?, h t List.mem_cons_self, hts]

/-- Looking up the variables of a term one by one gives its instance. -/
theorem subst?_eq_some {look : String → Option Term} {θ : String → Term} {t : Term}
    (h : ∀ x ∈ t.vars, look x = some (θ x)) : t.subst? look = some (t.apply θ) := by
  induction t with
  | var x => exact h x (by simp [vars])
  | atom _ | int _ | float _ | str _ => rfl
  | compound f args ih =>
      have hargs : substAll? look args = some (args.map (apply θ)) :=
        substAll?_of_forall fun a ha => ih a ha fun x hx =>
          h x (mem_vars_compound.mpr ⟨a, ha, hx⟩)
      simp [subst?, hargs]

theorem substAll?_eq_some {look : String → Option Term} {θ : String → Term} {ts : List Term}
    (h : ∀ x ∈ varsAll ts, look x = some (θ x)) :
    substAll? look ts = some (ts.map (apply θ)) :=
  substAll?_of_forall fun t ht => subst?_eq_some fun x hx => h x (mem_varsAll.mpr ⟨t, ht, hx⟩)

theorem anyVarAll?_of_forall {test : String → Option Bool} {p : String → Bool} {ts : List Term}
    (h : ∀ t ∈ ts, t.anyVar? test = some (t.vars.any p)) :
    anyVarAll? test ts = some ((varsAll ts).any p) := by
  induction ts with
  | nil => rfl
  | cons t ts ih =>
      have hts := ih fun u hu => h u (List.mem_cons_of_mem t hu)
      rw [anyVarAll?, h t List.mem_cons_self, varsAll, List.any_append]
      cases t.vars.any p with
      | true => simp
      | false => simpa using hts

/-- Testing the variables of a term one by one finds the first that passes. -/
theorem anyVar?_eq_some {test : String → Option Bool} {p : String → Bool} {t : Term}
    (h : ∀ x ∈ t.vars, test x = some (p x)) : t.anyVar? test = some (t.vars.any p) := by
  induction t with
  | var x => simp [anyVar?, vars, h x (by simp [vars])]
  | atom _ | int _ | float _ | str _ => rfl
  | compound f args ih =>
      rw [anyVar?, vars]
      exact anyVarAll?_of_forall fun a ha => ih a ha fun x hx =>
        h x (mem_vars_compound.mpr ⟨a, ha, hx⟩)

theorem anyVarAll?_eq_some {test : String → Option Bool} {p : String → Bool} {ts : List Term}
    (h : ∀ x ∈ varsAll ts, test x = some (p x)) :
    anyVarAll? test ts = some ((varsAll ts).any p) :=
  anyVarAll?_of_forall fun t ht => anyVar?_eq_some fun x hx => h x (mem_varsAll.mpr ⟨t, ht, hx⟩)

/-! ## Size -/

theorem compounds_le_compoundsAll {a : Term} {args : List Term} (ha : a ∈ args) :
    a.compounds ≤ compoundsAll args := by
  induction args with
  | nil => simp at ha
  | cons b args ih =>
      rcases List.mem_cons.mp ha with rfl | ha
      · simp [compoundsAll]
      · have hle := ih ha
        simp only [compoundsAll]
        omega

theorem compounds_lt_compound {a : Term} {f : String} {args : List Term} (ha : a ∈ args) :
    a.compounds < (compound f args).compounds := by
  have := compounds_le_compoundsAll ha
  simp only [compounds]
  omega

/-- What a variable is replaced by is a part of the instance. -/
theorem compounds_le_apply {θ : String → Term} {x : String} {t : Term} (hx : x ∈ t.vars) :
    (θ x).compounds ≤ (t.apply θ).compounds := by
  induction t with
  | var y =>
      have hxy : x = y := by simpa [vars] using hx
      simp [hxy]
  | atom _ | int _ | float _ | str _ => simp [vars] at hx
  | compound f args ih =>
      obtain ⟨a, ha, hxa⟩ := mem_vars_compound.mp hx
      have hle := ih a ha hxa
      have hlt : (a.apply θ).compounds < ((compound f args).apply θ).compounds := by
        rw [apply_compound]
        exact compounds_lt_compound (List.mem_map_of_mem ha)
      omega

/-- No substitution makes a variable equal to a compound term in which it occurs. -/
theorem apply_ne_of_mem_vars {θ : String → Term} {x f : String} {args : List Term}
    (hx : x ∈ (compound f args).vars) : θ x ≠ (compound f args).apply θ := by
  intro heq
  obtain ⟨a, ha, hxa⟩ := mem_vars_compound.mp hx
  have hle := compounds_le_apply (θ := θ) hxa
  have hlt : (a.apply θ).compounds < ((compound f args).apply θ).compounds := by
    rw [apply_compound]
    exact compounds_lt_compound (List.mem_map_of_mem ha)
  rw [← heq] at hlt
  omega

/-! ## Terms that are alike -/

/-- Two terms that are identical, except that corresponding floating-point leaves may be close. A
leaf that is not close to itself is still alike to itself. -/
inductive Alike : Term → Term → Prop
  | refl (t : Term) : Alike t t
  | float {x y : Float} (h : closeFloats x y = true) : Alike (.float x) (.float y)
  | compound {f : String} {as bs : List Term} (h : List.Forall₂ Alike as bs) :
      Alike (.compound f as) (.compound f bs)

/-- Instances of terms that are alike are alike, because a variable stands at the same places. -/
theorem Alike.apply {s t : Term} (h : Alike s t) (θ : String → Term) :
    Alike (s.apply θ) (t.apply θ) := by
  induction s generalizing t with
  | var _ | atom _ | int _ | str _ =>
      cases h
      exact .refl _
  | float x =>
      cases h with
      | refl => exact .refl _
      | float hxy => exact .float hxy
  | compound f args ih =>
      cases h with
      | refl => exact .refl _
      | compound hargs =>
          rw [apply_compound, apply_compound]
          refine .compound ?_
          clear f
          induction hargs with
          | nil => exact .nil
          | cons hab _ ihs =>
              refine .cons (ih _ (by simp) hab) (ihs fun a ha => ih a (by simp [ha]))

end Clausal.Term
