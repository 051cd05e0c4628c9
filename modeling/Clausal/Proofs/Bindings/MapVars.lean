import Clausal.Arithmetic
import Clausal.Proofs.Bindings.Acyclic
import Clausal.Proofs.Term.Leaves

/-!
# One-to-one renaming

A one-to-one map of names renames terms and bindings, the bound names included. Whatever is looked
up through the bindings afterwards is the renamed form of what was found before: where a chain ends,
what a variable stands for, whether one occurs in a term, and the value of an expression. No
condition on the bindings is needed, since a circle of bindings is renamed like everything else.
-/

namespace Clausal

namespace Term

variable {f : String → String}

theorem mapVars_congr {g : String → String} {t : Term} (h : ∀ x ∈ t.vars, f x = g x) :
    t.mapVars f = t.mapVars g := by
  rw [← apply_var_comp f, ← apply_var_comp g]
  exact apply_congr fun x hx => by rw [h x hx]

theorem mapVarsAll_congr {g : String → String} {ts : List Term} (h : ∀ x ∈ varsAll ts, f x = g x) :
    mapVarsAll f ts = mapVarsAll g ts :=
  (compound.inj (mapVars_congr (t := .compound "" ts) h)).2

theorem mapVars_eq_self {t : Term} (h : ∀ x ∈ t.vars, f x = x) : t.mapVars f = t := by
  rw [← apply_var_comp]
  calc t.apply (fun x => .var (f x)) = t.apply var := apply_congr fun x hx => by rw [h x hx]
    _ = t := apply_var_eq t

theorem mapVars_mapVars (f g : String → String) (t : Term) :
    (t.mapVars f).mapVars g = t.mapVars (g ∘ f) := by
  rw [← apply_var_comp g, apply_mapVars]
  exact apply_var_comp (g ∘ f) t

theorem length_mapVarsAll (f : String → String) (ts : List Term) :
    (mapVarsAll f ts).length = ts.length := by
  rw [mapVarsAll_eq, List.length_map]

@[simp] theorem isVar_mapVars (f : String → String) (t : Term) : (t.mapVars f).isVar = t.isVar := by
  cases t <;> rfl

@[simp] theorem number?_mapVars (f : String → String) (t : Term) :
    (t.mapVars f).number? = t.number? := by
  cases t <;> rfl

theorem vars_mapVars (f : String → String) (t : Term) : (t.mapVars f).vars = t.vars.map f := by
  induction t with
  | var _ | atom _ | int _ | float _ | str _ => rfl
  | compound g args ih =>
      simp only [mapVars, vars, varsAll_eq, mapVarsAll_eq, List.flatMap_map, List.map_flatMap]
      exact List.flatMap_congr ih

theorem varsAll_mapVarsAll (f : String → String) (ts : List Term) :
    varsAll (mapVarsAll f ts) = (varsAll ts).map f := by
  have h := vars_mapVars f (.compound "" ts)
  rwa [mapVars, vars, vars] at h

theorem isGround_mapVars (f : String → String) (t : Term) :
    (t.mapVars f).isGround = t.isGround := by
  rw [Bool.eq_iff_iff, isGround_iff, isGround_iff, vars_mapVars]
  simp only [← List.eq_nil_iff_forall_not_mem, List.map_eq_nil_iff]

theorem isGroundAll_mapVarsAll (f : String → String) (ts : List Term) :
    isGroundAll (mapVarsAll f ts) = isGroundAll ts :=
  isGround_mapVars f (.compound "" ts)

theorem hasText_mapVars (f : String → String) (t : Term) : (t.mapVars f).hasText = t.hasText := by
  induction t with
  | var _ | atom _ | int _ | float _ | str _ => rfl
  | compound g args ih =>
      simp only [mapVars, hasText, hasTextAll_eq, mapVarsAll_eq, List.all_map]
      rw [Bool.eq_iff_iff, List.all_eq_true, List.all_eq_true]
      exact forall₂_congr fun a ha => by rw [Function.comp_apply, ih a ha]

theorem hasTextAll_mapVarsAll (f : String → String) (ts : List Term) :
    hasTextAll (mapVarsAll f ts) = hasTextAll ts :=
  hasText_mapVars f (.compound "" ts)

theorem compoundsAll_mapVarsAll_of_forall {ts : List Term}
    (h : ∀ t ∈ ts, (t.mapVars f).compounds = t.compounds) :
    compoundsAll (mapVarsAll f ts) = compoundsAll ts := by
  induction ts with
  | nil => rfl
  | cons t ts ih =>
      have hts := ih fun u hu => h u (List.mem_cons_of_mem t hu)
      rw [mapVarsAll, compoundsAll, compoundsAll, h t List.mem_cons_self, hts]

theorem compounds_mapVars (f : String → String) (t : Term) :
    (t.mapVars f).compounds = t.compounds := by
  induction t with
  | var _ | atom _ | int _ | float _ | str _ => rfl
  | compound g args ih => rw [mapVars, compounds, compounds, compoundsAll_mapVarsAll_of_forall ih]

theorem compoundsAll_mapVarsAll (f : String → String) (ts : List Term) :
    compoundsAll (mapVarsAll f ts) = compoundsAll ts :=
  compoundsAll_mapVarsAll_of_forall fun t _ => compounds_mapVars f t

/-! ## Looking up variables one by one -/

section Lookup

variable {look look' : String → Option Term} {test test' : String → Option Bool}

theorem substAll?_mapVarsAll_of_forall {ts : List Term}
    (h : ∀ t ∈ ts, (t.mapVars f).subst? look' = (t.subst? look).map (mapVars f)) :
    substAll? look' (mapVarsAll f ts) = (substAll? look ts).map (mapVarsAll f) := by
  induction ts with
  | nil => rfl
  | cons t ts ih =>
      have hts := ih fun u hu => h u (List.mem_cons_of_mem t hu)
      rw [mapVarsAll, substAll?, substAll?, h t List.mem_cons_self, hts]
      cases t.subst? look with
      | none => rfl
      | some t' => cases substAll? look ts <;> rfl

theorem subst?_mapVars (h : ∀ x, look' (f x) = (look x).map (mapVars f)) (t : Term) :
    (t.mapVars f).subst? look' = (t.subst? look).map (mapVars f) := by
  induction t with
  | var x => exact h x
  | atom _ | int _ | float _ | str _ => rfl
  | compound g args ih =>
      rw [mapVars, subst?, subst?, substAll?_mapVarsAll_of_forall ih]
      cases substAll? look args <;> rfl

theorem substAll?_mapVarsAll (h : ∀ x, look' (f x) = (look x).map (mapVars f)) (ts : List Term) :
    substAll? look' (mapVarsAll f ts) = (substAll? look ts).map (mapVarsAll f) :=
  substAll?_mapVarsAll_of_forall fun t _ => subst?_mapVars h t

theorem anyVarAll?_mapVarsAll_of_forall {ts : List Term}
    (h : ∀ t ∈ ts, (t.mapVars f).anyVar? test' = t.anyVar? test) :
    anyVarAll? test' (mapVarsAll f ts) = anyVarAll? test ts := by
  induction ts with
  | nil => rfl
  | cons t ts ih =>
      have hts := ih fun u hu => h u (List.mem_cons_of_mem t hu)
      rw [mapVarsAll, anyVarAll?, anyVarAll?, h t List.mem_cons_self, hts]

theorem anyVar?_mapVars (h : ∀ x, test' (f x) = test x) (t : Term) :
    (t.mapVars f).anyVar? test' = t.anyVar? test := by
  induction t with
  | var x => exact h x
  | atom _ | int _ | float _ | str _ => rfl
  | compound g args ih => rw [mapVars, anyVar?, anyVar?, anyVarAll?_mapVarsAll_of_forall ih]

end Lookup

end Term

/-! ## Evaluation -/

/-- The outcome of an evaluation, in which an expression without value has no further cause. -/
def withoutCause : Except Fault Number → Except Fault (Option Number)
  | .ok n => .ok (some n)
  | .error (.arithmetic _) => .ok none
  | .error e => .error e

theorem withoutCause_notArithmetic (f : String → String) (t : Term) :
    withoutCause (.error (notArithmetic (t.mapVars f))) =
      withoutCause (.error (notArithmetic t)) := by
  rw [notArithmetic, notArithmetic, Term.hasText_mapVars]
  split <;> rfl

theorem Operation.withoutCause_compute (op : Operation) (f : String → String) (t : Term)
    (a b : Number) :
    withoutCause (op.compute (t.mapVars f) a b) = withoutCause (op.compute t a b) := by
  rw [compute, compute]
  split
  · rfl
  · cases op.result? a b with
    | some n => rfl
    | none =>
        rw [overflowIn, overflowIn, Term.hasText_mapVars]
        dsimp only
        split <;> rfl

/-- Evaluation meets the same variables in the same order, so it gives up at the same place. -/
theorem Term.withoutCause_evaluateWith {f : String → String}
    {look look' : String → Except Fault Number}
    (h : ∀ x, withoutCause (look' (f x)) = withoutCause (look x)) (t : Term) :
    withoutCause ((t.mapVars f).evaluateWith look') = withoutCause (t.evaluateWith look) := by
  induction t with
  | var x => exact h x
  | int _ | float _ => rfl
  | atom a => exact withoutCause_notArithmetic f (.atom a)
  | str s => exact withoutCause_notArithmetic f (.str s)
  | compound g args ih =>
      match args with
      | [l, r] =>
          have hl := ih l (by simp)
          have hr := ih r (by simp)
          have hmap : mapVars f (compound g [l, r]) = compound g [l.mapVars f, r.mapVars f] := rfl
          rw [hmap, evaluateWith, evaluateWith]
          cases Operation.ofSymbol? g with
          | none => rfl
          | some op =>
              dsimp only
              rcases hla : l.evaluateWith look with e | a <;>
                rcases hla' : (l.mapVars f).evaluateWith look' with e' | a' <;>
                rw [hla, hla'] at hl
              · exact hl
              · cases e <;> simp [withoutCause] at hl
              · cases e' <;> simp [withoutCause] at hl
              · obtain rfl : a' = a := by simpa [withoutCause] using hl
                rcases hrb : r.evaluateWith look with e | b <;>
                  rcases hrb' : (r.mapVars f).evaluateWith look' with e' | b' <;>
                  rw [hrb, hrb'] at hr
                · exact hr
                · cases e <;> simp [withoutCause] at hr
                · cases e' <;> simp [withoutCause] at hr
                · obtain rfl : b' = b := by simpa [withoutCause] using hr
                  exact op.withoutCause_compute f (compound g [l, r]) a' b'
      | [] => exact withoutCause_notArithmetic f (.compound g [])
      | [t] => exact withoutCause_notArithmetic f (.compound g [t])
      | t :: u :: v :: ts => exact withoutCause_notArithmetic f (.compound g (t :: u :: v :: ts))

/-! ## Bindings -/

namespace Bindings

variable {f : String → String} {b : Bindings}

theorem weightOf_mapVars (f : String → String) (es : List (String × Term)) :
    weightOf (es.map fun e => (f e.1, e.2.mapVars f)) = weightOf es := by
  induction es with
  | nil => rfl
  | cons e es ih =>
      change (e.2.mapVars f).compounds + weightOf (es.map _) = e.2.compounds + weightOf es
      rw [Term.compounds_mapVars, ih]

/-- Renames the bound names and the variables of the values. -/
def mapVars (f : String → String) (b : Bindings) : Bindings where
  entries := b.entries.map fun e => (f e.1, e.2.mapVars f)
  index := indexOf (b.entries.map fun e => (f e.1, e.2.mapVars f))
  count := b.count
  weight := b.weight
  index_eq := rfl
  count_eq := by rw [b.count_eq, List.length_map]
  weight_eq := by rw [b.weight_eq, weightOf_mapVars]

@[simp] theorem count_mapVars : (b.mapVars f).count = b.count := rfl

@[simp] theorem weight_mapVars : (b.mapVars f).weight = b.weight := rfl

theorem mapVars_insert (f : String → String) (b : Bindings) (x : String) (t : Term) :
    (b.insert x t).mapVars f = (b.mapVars f).insert (f x) (t.mapVars f) := by
  ext1
  rfl

theorem mapVars_congr {g : String → String}
    (h : ∀ e ∈ b.entries, f e.1 = g e.1 ∧ e.2.mapVars f = e.2.mapVars g) :
    b.mapVars f = b.mapVars g := by
  ext1
  exact List.map_congr_left fun e he => Prod.ext (h e he).1 (h e he).2

variable (hf : Function.Injective f)

include hf

theorem get?_mapVars (b : Bindings) (x : String) :
    (b.mapVars f).get? (f x) = (b.get? x).map (Term.mapVars f) := by
  rw [get?_eq_lookup, get?_eq_lookup]
  change (b.entries.map _).lookup (f x) = _
  induction b.entries with
  | nil => rfl
  | cons e es ih =>
      rw [List.map_cons, List.lookup_cons, List.lookup_cons, hf.beq_eq]
      cases x == e.1 with
      | true => rfl
      | false => exact ih

theorem chase_mapVars (b : Bindings) (n : Nat) (x : String) :
    (b.mapVars f).chase n (f x) = (b.chase n x).map (Term.mapVars f) := by
  induction n generalizing x with
  | zero => rfl
  | succ n ih =>
      rw [chase, chase, get?_mapVars hf]
      rcases b.get? x with _ | t
      · rfl
      · cases t with
        | var y => exact ih y
        | _ => rfl

theorem firstRepeat_mapVars (b : Bindings) (n : Nat) (seen : List String) (x : String) :
    (b.mapVars f).firstRepeat n (seen.map f) (f x) = f (b.firstRepeat n seen x) := by
  induction n generalizing seen x with
  | zero => rfl
  | succ n ih =>
      have hseen : (seen.map f).contains (f x) = seen.contains x := by
        rw [Bool.eq_iff_iff, List.contains_iff_mem, List.contains_iff_mem,
          List.mem_map_of_injective hf]
      rw [firstRepeat, firstRepeat, hseen, get?_mapVars hf]
      split
      · rfl
      · rcases b.get? x with _ | t
        · rfl
        · cases t with
          | var y => exact ih (x :: seen) y
          | _ => rfl

theorem deref_mapVars (b : Bindings) (x : String) :
    (b.mapVars f).deref (f x) = (b.deref x).mapVars f := by
  rw [deref, deref, count_mapVars, chase_mapVars hf]
  cases b.chase (b.count + 1) x with
  | some t => rfl
  | none => exact congrArg Term.var (firstRepeat_mapVars hf b _ [] x)

theorem resolve_mapVars (b : Bindings) (t : Term) :
    (b.mapVars f).resolve (t.mapVars f) = (b.resolve t).mapVars f := by
  cases t with
  | var x => exact deref_mapVars hf b x
  | _ => rfl

theorem isOpen_mapVars (b : Bindings) (x : String) :
    (b.mapVars f).isOpen (f x) = b.isOpen x := by
  rw [isOpen, isOpen, deref_mapVars hf]
  cases b.deref x with
  | var y => exact hf.beq_eq
  | _ => rfl

theorem expand?_mapVars (b : Bindings) (n : Nat) (x : String) :
    (b.mapVars f).expand? n (f x) = (b.expand? n x).map (Term.mapVars f) := by
  induction n generalizing x with
  | zero => rfl
  | succ n ih =>
      rw [expand?, expand?, deref_mapVars hf]
      cases b.deref x with
      | compound g args =>
          rw [Term.mapVars]
          dsimp only
          rw [Term.substAll?_mapVarsAll ih]
          cases Term.substAll? (b.expand? n) args <;> rfl
      | _ => rfl

theorem value?_mapVars (b : Bindings) (x : String) :
    (b.mapVars f).value? (f x) = (b.value? x).map (Term.mapVars f) :=
  expand?_mapVars hf b _ x

theorem substitute?_mapVars (b : Bindings) (t : Term) :
    (b.mapVars f).substitute? (t.mapVars f) = (b.substitute? t).map (Term.mapVars f) :=
  Term.subst?_mapVars (value?_mapVars hf b) t

theorem substituteAll?_mapVars (b : Bindings) (ts : List Term) :
    (b.mapVars f).substituteAll? (Term.mapVarsAll f ts) =
      (b.substituteAll? ts).map (Term.mapVarsAll f) :=
  Term.substAll?_mapVarsAll (value?_mapVars hf b) ts

theorem occursIn?_mapVars (b : Bindings) (v : String) (n : Nat) (x : String) :
    (b.mapVars f).occursIn? (f v) n (f x) = b.occursIn? v n x := by
  induction n generalizing x with
  | zero => rfl
  | succ n ih =>
      rw [occursIn?, occursIn?, deref_mapVars hf]
      cases b.deref x with
      | var y => exact congrArg some hf.beq_eq
      | compound g args =>
          exact Term.anyVarAll?_mapVarsAll_of_forall fun t _ => Term.anyVar?_mapVars ih t
      | _ => rfl

theorem occurs?_mapVars (b : Bindings) (v : String) (t : Term) :
    (b.mapVars f).occurs? (f v) (t.mapVars f) = b.occurs? v t :=
  Term.anyVar?_mapVars (occursIn?_mapVars hf b v _) t

theorem withoutCause_numberOf (b : Bindings) (n : Nat) (x : String) :
    withoutCause ((b.mapVars f).numberOf n (f x)) = withoutCause (b.numberOf n x) := by
  induction n generalizing x with
  | zero => rfl
  | succ n ih =>
      rw [numberOf, numberOf, deref_mapVars hf]
      have hvalue := Term.withoutCause_evaluateWith ih (b.deref x)
      cases hd : b.deref x with
      | var y => exact withoutCause_notArithmetic f (.var y)
      | _ =>
          rw [hd] at hvalue
          exact hvalue

theorem withoutCause_evaluate (b : Bindings) (t : Term) :
    withoutCause ((b.mapVars f).evaluate (t.mapVars f)) = withoutCause (b.evaluate t) :=
  Term.withoutCause_evaluateWith (withoutCause_numberOf hf b _) t

end Bindings

end Clausal
