import Clausal.Proofs.Term.Instance
import Mathlib.Data.Finset.Card
import Mathlib.Logic.Relation

/-!
# Acyclic bindings

Bindings are kept unapplied: a value may mention bound variables. They stand for a substitution
when no variable leads back to itself through the values. This module assigns every variable of
acyclic bindings a rank that falls along the values and is bounded by the number of entries, so all
searches through the bindings end within their bounds. What a variable stands for is then its
`image`, which satisfies the equation one expects, and the occurs check decides whether a variable
is among those of an instance.
-/

namespace Clausal.Bindings

theorem getElem?_indexOf (es : List (String × Term)) (x : String) :
    (indexOf es)[x]? = es.lookup x := by
  induction es with
  | nil => simp [indexOf]
  | cons e es ih =>
      obtain ⟨y, t⟩ := e
      have hstep : indexOf ((y, t) :: es) = (indexOf es).insert y t := rfl
      rw [hstep, Std.TreeMap.getElem?_insert, ih, List.lookup_cons]
      by_cases hxy : x = y
      · subst hxy
        simp
      · have hne : (x == y) = false := by simpa using hxy
        simp [hne, Std.LawfulEqCmp.compare_eq_iff_eq, Ne.symm hxy]

theorem get?_eq_lookup (b : Bindings) (x : String) : b.get? x = b.entries.lookup x := by
  rw [get?, b.index_eq, getElem?_indexOf]

theorem mem_entries_of_get? {b : Bindings} {x : String} {t : Term} (h : b.get? x = some t) :
    (x, t) ∈ b.entries := by
  rw [get?_eq_lookup] at h
  obtain ⟨before, after, heq, _⟩ := List.lookup_eq_some_iff.mp h
  simp [heq]

/-! ## Rank -/

/-- The value of the first variable mentions the second one. -/
def Leads (b : Bindings) (x y : String) : Prop :=
  ∃ t, b.get? x = some t ∧ y ∈ t.vars

/-- No variable reaches itself through the variables of its value. -/
def Acyclic (b : Bindings) : Prop :=
  ∀ x, ¬ Relation.TransGen b.Leads x x

open Classical in
/-- The number of bound variables that a variable reaches, itself included. -/
noncomputable def rank (b : Bindings) (x : String) : Nat :=
  ((b.entries.map Prod.fst).toFinset.filter fun k => Relation.ReflTransGen b.Leads x k).card

theorem rank_le_count (b : Bindings) (x : String) : b.rank x ≤ b.count := by
  classical
  calc b.rank x ≤ (b.entries.map Prod.fst).toFinset.card := Finset.card_filter_le _ _
    _ ≤ (b.entries.map Prod.fst).length := List.toFinset_card_le _
    _ = b.count := by rw [List.length_map, b.count_eq]

namespace Acyclic

variable {b : Bindings} (hb : b.Acyclic)

include hb

theorem rank_lt {x y : String} (h : b.Leads x y) : b.rank y < b.rank x := by
  classical
  obtain ⟨t, ht, hy⟩ := h
  apply Finset.card_lt_card
  refine ⟨fun k hk => ?_, fun hsub => ?_⟩
  · simp only [Finset.mem_filter] at hk ⊢
    exact ⟨hk.1, .head ⟨t, ht, hy⟩ hk.2⟩
  · have hx : x ∈ (b.entries.map Prod.fst).toFinset := by
      rw [List.mem_toFinset]
      exact List.mem_map_of_mem (mem_entries_of_get? ht)
    have hxx := hsub (Finset.mem_filter.mpr ⟨hx, .refl⟩)
    have hback := (Finset.mem_filter.mp hxx).2
    exact hb x (.head' ⟨t, ht, hy⟩ hback)

/-- Induction along the values of acyclic bindings. -/
theorem induction {motive : String → Prop} (unbound : ∀ x, b.get? x = none → motive x)
    (bound : ∀ x t, b.get? x = some t → (∀ y ∈ t.vars, motive y) → motive x) (x : String) :
    motive x := by
  induction hn : b.rank x using Nat.strong_induction_on generalizing x with
  | _ n ih =>
      cases ht : b.get? x with
      | none => exact unbound x ht
      | some t =>
          refine bound x t ht fun y hy => ?_
          exact ih (b.rank y) (hn ▸ hb.rank_lt ⟨t, ht, hy⟩) y rfl

end Acyclic

/-! ## Chains of variables -/

theorem deref_of_unbound {b : Bindings} {x : String} (h : b.get? x = none) :
    b.deref x = .var x := by
  simp [deref, chase, h]

theorem chase_of_nonvar {b : Bindings} {x : String} {t : Term} (h : b.get? x = some t)
    (ht : ∀ y, t ≠ .var y) (n : Nat) : b.chase (n + 1) x = some t := by
  cases t with
  | var y => exact (ht y rfl).elim
  | _ => simp [chase, h]

theorem deref_of_nonvar {b : Bindings} {x : String} {t : Term} (h : b.get? x = some t)
    (ht : ∀ y, t ≠ .var y) : b.deref x = t := by
  rw [deref, chase_of_nonvar h ht]

theorem resolve_of_nonvar {b : Bindings} {t : Term} (ht : ∀ y, t ≠ .var y) : b.resolve t = t := by
  cases t with
  | var y => exact (ht y rfl).elim
  | _ => rfl

namespace Acyclic

variable {b : Bindings} (hb : b.Acyclic)

include hb

theorem exists_chase (x : String) : ∃ t, ∀ n, b.rank x < n → b.chase n x = some t := by
  induction x using hb.induction with
  | unbound x hx =>
      refine ⟨.var x, fun n hn => ?_⟩
      obtain ⟨k, rfl⟩ := Nat.exists_eq_add_one_of_ne_zero (Nat.ne_zero_of_lt hn)
      simp [chase, hx]
  | bound x t ht ih =>
      rcases t.var_or_nonvar with ⟨y, rfl⟩ | hne
      · have hlt : b.rank y < b.rank x := hb.rank_lt ⟨.var y, ht, by simp [Term.vars]⟩
        obtain ⟨u, hu⟩ := ih y (by simp [Term.vars])
        refine ⟨u, fun n hn => ?_⟩
        obtain ⟨k, rfl⟩ := Nat.exists_eq_add_one_of_ne_zero (Nat.ne_zero_of_lt hn)
        simp only [chase, ht]
        exact hu k (by omega)
      · refine ⟨t, fun n hn => ?_⟩
        obtain ⟨k, rfl⟩ := Nat.exists_eq_add_one_of_ne_zero (Nat.ne_zero_of_lt hn)
        exact chase_of_nonvar ht hne k

theorem chase_eq {n : Nat} {x : String} (hn : b.rank x < n) : b.chase n x = some (b.deref x) := by
  obtain ⟨t, ht⟩ := hb.exists_chase x
  have hcount : b.chase (b.count + 1) x = some t :=
    ht _ (Nat.lt_succ_of_le (b.rank_le_count x))
  rw [ht n hn, deref, hcount]

theorem deref_of_bound {x : String} {t : Term} (h : b.get? x = some t) :
    b.deref x = b.resolve t := by
  rcases t.var_or_nonvar with ⟨y, rfl⟩ | hne
  · have hlt : b.rank y < b.count + 1 := Nat.lt_succ_of_le (b.rank_le_count y)
    have hx : b.chase (b.count + 2) x = some (b.deref x) :=
      hb.chase_eq (Nat.lt_succ_of_lt (Nat.lt_succ_of_le (b.rank_le_count x)))
    have hstep : b.chase (b.count + 2) x = b.chase (b.count + 1) y := by simp [chase, h]
    rw [hstep, hb.chase_eq hlt] at hx
    simpa [resolve] using hx.symm
  · rw [deref_of_nonvar h hne, resolve_of_nonvar hne]

/-- A chain ends in an unbound variable, or in a value of lower rank. -/
theorem deref_cases (x : String) :
    (∃ y, b.deref x = .var y ∧ b.get? y = none) ∨
      (∀ y, b.deref x ≠ .var y) ∧ ∀ y ∈ (b.deref x).vars, b.rank y < b.rank x := by
  induction x using hb.induction with
  | unbound x hx => exact .inl ⟨x, deref_of_unbound hx, hx⟩
  | bound x t ht ih =>
      rcases t.var_or_nonvar with ⟨y, rfl⟩ | hne
      · have hlt : b.rank y < b.rank x := hb.rank_lt ⟨.var y, ht, by simp [Term.vars]⟩
        have heq : b.deref x = b.deref y := hb.deref_of_bound ht
        rcases ih y (by simp [Term.vars]) with ⟨z, hz, hfree⟩ | ⟨hend, hrank⟩
        · exact .inl ⟨z, heq.trans hz, hfree⟩
        · rw [heq]
          exact .inr ⟨hend, fun z hz => (hrank z hz).trans hlt⟩
      · rw [deref_of_nonvar ht hne]
        exact .inr ⟨hne, fun y hy => hb.rank_lt ⟨t, ht, hy⟩⟩

theorem get?_of_deref_var {x y : String} (h : b.deref x = .var y) : b.get? y = none := by
  rcases hb.deref_cases x with ⟨z, hz, hfree⟩ | ⟨hne, _⟩
  · have hzy : z = y := by simpa [hz] using h
    exact hzy ▸ hfree
  · exact (hne y h).elim

theorem get?_of_resolve_var {t : Term} {y : String} (h : b.resolve t = .var y) :
    b.get? y = none := by
  cases t with
  | var x => exact hb.get?_of_deref_var h
  | _ => simp [resolve] at h

end Acyclic

/-! ## Images -/

/-- What a variable stands for: its full value, or itself where there is none. -/
def image (b : Bindings) (x : String) : Term :=
  (b.value? x).getD (.var x)

theorem image_eq_of_deref_var {b : Bindings} {x y : String} (h : b.deref x = .var y) :
    b.image x = .var y := by
  simp [image, value?, expand?, h]

theorem image_of_unbound {b : Bindings} {x : String} (h : b.get? x = none) :
    b.image x = .var x :=
  image_eq_of_deref_var (deref_of_unbound h)

theorem value?_congr {b : Bindings} {x y : String} (h : b.deref x = b.deref y) :
    b.value? x = b.value? y := by
  simp only [value?, expand?, h]

namespace Acyclic

variable {b : Bindings} (hb : b.Acyclic)

include hb

theorem exists_expand (x : String) : ∃ t, ∀ n, b.rank x < n → b.expand? n x = some t := by
  induction hr : b.rank x using Nat.strong_induction_on generalizing x with
  | _ r ih =>
      subst hr
      cases hd : b.deref x with
      | compound f args =>
          -- each variable of the arguments has its own value; together they are a substitution
          have hvars : ∀ y ∈ Term.varsAll args, b.rank y < b.rank x := by
            rcases hb.deref_cases x with ⟨y, hy, _⟩ | ⟨_, hrank⟩
            · simp [hy] at hd
            · intro y hy
              exact hrank y (by rw [hd]; exact hy)
          have hval : ∀ y, ∃ t, y ∈ Term.varsAll args →
              ∀ n, b.rank y < n → b.expand? n y = some t := by
            intro y
            by_cases hy : y ∈ Term.varsAll args
            · obtain ⟨t, ht⟩ := ih _ (hvars y hy) y rfl
              exact ⟨t, fun _ => ht⟩
            · exact ⟨.var y, fun h => (hy h).elim⟩
          choose θ hθ using hval
          refine ⟨.compound f (args.map (Term.apply θ)), fun n hn => ?_⟩
          obtain ⟨k, rfl⟩ := Nat.exists_eq_add_one_of_ne_zero (Nat.ne_zero_of_lt hn)
          have hargs : Term.substAll? (b.expand? k) args = some (args.map (Term.apply θ)) :=
            Term.substAll?_eq_some fun y hy => hθ y hy k (by have := hvars y hy; omega)
          simp only [expand?, hd, hargs]
      | _ =>
          refine ⟨b.deref x, fun n hn => ?_⟩
          obtain ⟨k, rfl⟩ := Nat.exists_eq_add_one_of_ne_zero (Nat.ne_zero_of_lt hn)
          simp only [expand?, hd]

theorem expand?_eq {n : Nat} {x : String} (hn : b.rank x < n) :
    b.expand? n x = some (b.image x) := by
  obtain ⟨t, ht⟩ := hb.exists_expand x
  have hvalue : b.value? x = some t := ht _ (Nat.lt_succ_of_le (b.rank_le_count x))
  rw [ht n hn, image, hvalue, Option.getD_some]

theorem value?_eq (x : String) : b.value? x = some (b.image x) :=
  hb.expand?_eq (Nat.lt_succ_of_le (b.rank_le_count x))

/-- The full value of a variable is the instance of the term at the end of its chain. -/
theorem image_eq_of_deref_nonvar {x : String} (h : ∀ y, b.deref x ≠ .var y) :
    b.image x = (b.deref x).apply b.image := by
  have hrank : ∀ y ∈ (b.deref x).vars, b.rank y < b.rank x := by
    rcases hb.deref_cases x with ⟨y, hy, _⟩ | ⟨_, hrank⟩
    · exact (h y hy).elim
    · exact hrank
  have hx := hb.value?_eq x
  rw [value?, expand?] at hx
  cases hd : b.deref x with
  | var y => exact (h y hd).elim
  | compound f args =>
      have hargs : Term.substAll? (b.expand? b.count) args =
          some (args.map (Term.apply b.image)) := by
        refine Term.substAll?_eq_some fun y hy => hb.expand?_eq ?_
        have hlt := hrank y (by rw [hd]; exact hy)
        have hle := b.rank_le_count x
        omega
      simp only [hd, hargs, Option.some.injEq] at hx
      rw [← hx, Term.apply_compound]
  | _ => simpa [hd] using hx.symm

/-- The equation of images: a bound variable stands for the instance of its value. -/
theorem image_of_bound {x : String} {t : Term} (h : b.get? x = some t) :
    b.image x = t.apply b.image := by
  rcases t.var_or_nonvar with ⟨y, rfl⟩ | hne
  · have hxy : b.value? x = b.value? y := value?_congr (hb.deref_of_bound h)
    rw [hb.value?_eq, hb.value?_eq, Option.some.injEq] at hxy
    exact hxy
  · have hd : b.deref x = t := deref_of_nonvar h hne
    rw [hb.image_eq_of_deref_nonvar (hd ▸ hne), hd]

/-- Substitution through acyclic bindings has a result: the instance under the images. -/
theorem substitute?_eq (t : Term) : b.substitute? t = some (t.apply b.image) :=
  Term.subst?_eq_some fun x _ => hb.value?_eq x

theorem substituteAll?_eq (ts : List Term) :
    b.substituteAll? ts = some (ts.map (Term.apply b.image)) :=
  Term.substAll?_eq_some fun x _ => hb.value?_eq x

/-! ## The occurs check -/

/-- The variables of a full value are the unbound variables that are reached. -/
theorem mem_vars_image {x v : String} :
    v ∈ (b.image x).vars ↔ b.get? v = none ∧ Relation.ReflTransGen b.Leads x v := by
  induction x using hb.induction with
  | unbound x hx =>
      rw [image_of_unbound hx, Term.vars, List.mem_singleton]
      constructor
      · rintro rfl
        exact ⟨hx, .refl⟩
      · rintro ⟨_, hreach⟩
        rcases hreach.cases_head with heq | ⟨y, ⟨t, ht, _⟩, _⟩
        · exact heq.symm
        · simp [hx] at ht
  | bound x t ht ih =>
      rw [hb.image_of_bound ht, Term.mem_vars_apply]
      constructor
      · rintro ⟨y, hy, hv⟩
        obtain ⟨hfree, hreach⟩ := (ih y hy).mp hv
        exact ⟨hfree, .head ⟨t, ht, hy⟩ hreach⟩
      · rintro ⟨hfree, hreach⟩
        rcases hreach.cases_head with rfl | ⟨y, ⟨u, hu, hy⟩, hrest⟩
        · simp [ht] at hfree
        · have htu : t = u := by simpa [ht] using hu
          subst htu
          exact ⟨y, hy, (ih y hy).mpr ⟨hfree, hrest⟩⟩

theorem occursIn?_eq (v : String) {n : Nat} {x : String} (hn : b.rank x < n) :
    b.occursIn? v n x = some (decide (v ∈ (b.image x).vars)) := by
  induction n generalizing x with
  | zero => omega
  | succ n ih =>
      rcases hb.deref_cases x with ⟨y, hy, _⟩ | ⟨hend, hrank⟩
      · simp [occursIn?, hy, image_eq_of_deref_var hy, Term.vars, beq_eq_decide]
      · rw [hb.image_eq_of_deref_nonvar hend]
        cases hd : b.deref x with
        | var y => exact (hend y hd).elim
        | compound f args =>
            rw [hd] at hrank
            have hargs : Term.anyVarAll? (b.occursIn? v n) args =
                some ((Term.compound f args).vars.any fun y => decide (v ∈ (b.image y).vars)) :=
              Term.anyVarAll?_eq_some fun y hy => ih (by have := hrank y hy; omega)
            rw [occursIn?, hd, ← Term.any_mem_vars]
            exact hargs
        | _ => simp [occursIn?, hd, Term.vars]

/-- The occurs check decides whether a variable is one of those of the instance. -/
theorem occurs?_eq (v : String) (t : Term) :
    b.occurs? v t = some (decide (v ∈ (t.apply b.image).vars)) := by
  rw [← Term.any_mem_vars]
  exact Term.anyVar?_eq_some fun y _ =>
    hb.occursIn?_eq v (Nat.lt_succ_of_le (b.rank_le_count y))

end Acyclic

end Clausal.Bindings
