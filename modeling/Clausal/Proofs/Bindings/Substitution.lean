import Clausal.Proofs.Bindings.Extension
import Clausal.Proofs.Term.Leaves

/-!
# When substitution ends, and what it gives

Bindings may be cyclic when the occurs check is off or when they are given from outside. A circle of
variables is harmless: a chain stops at the first variable that it meets again, and that variable
stands for itself from then on. A circle through compound terms is not, because the value of a
variable on it has no finite form. Substitution is described here without any bound on its depth, by
`EndsIn` for chains and `Unfolds` for terms. It has a result exactly if no circle through compound
terms is reached, and substituting in the result changes nothing.

Both arguments that something ends keep the list of variables on the way. None of them comes twice
and all are bound, so the list is not longer than the number of entries.

Through acyclic bindings there always is a result, and substituting through an extension of the
bindings afterwards is the same as substituting through the extension at once.
-/

namespace Clausal

namespace Term

variable {look : String → Option Term}

theorem exists_of_substAll? {ts us : List Term} (h : substAll? look ts = some us) :
    ∀ t ∈ ts, ∃ u, t.subst? look = some u := by
  induction ts generalizing us with
  | nil => simp
  | cons t ts ih =>
      rw [substAll?] at h
      split at h
      · simp at h
      · next t' ht =>
        split at h
        · next ts' hts => exact List.forall_mem_cons.mpr ⟨⟨t', ht⟩, ih hts⟩
        · simp at h

theorem exists_subst?_iff {t : Term} :
    (∃ u, t.subst? look = some u) ↔ ∀ x ∈ t.vars, ∃ v, look x = some v := by
  constructor
  · rintro ⟨u, hu⟩
    induction t generalizing u with
    | var y =>
        intro x hx
        obtain rfl : x = y := by simpa [vars] using hx
        exact ⟨u, hu⟩
    | atom _ | int _ | float _ | str _ => simp [vars]
    | compound f args ih =>
        intro x hx
        obtain ⟨a, ha, hxa⟩ := mem_vars_compound.mp hx
        rw [subst?] at hu
        split at hu
        · next args' hargs =>
          obtain ⟨u', hu'⟩ := exists_of_substAll? hargs a ha
          exact ih a ha u' hu' x hxa
        · simp at hu
  · intro h
    have hlook : ∀ x ∈ t.vars, look x = some ((look x).getD (.var x)) := by
      intro x hx
      obtain ⟨v, hv⟩ := h x hx
      rw [hv, Option.getD_some]
    exact ⟨_, subst?_eq_some hlook⟩

end Term

namespace Bindings

open Relation

variable {b : Bindings} {met : List String} {n : Nat} {x y : String} {t u : Term}

theorem length_le_count (hnodup : met.Nodup) (hbound : ∀ z ∈ met, b.get? z ≠ none) :
    met.length ≤ b.count := by
  have hkeys : met.toFinset ⊆ (b.entries.map Prod.fst).toFinset := by
    intro z hz
    obtain ⟨t, ht⟩ := Option.ne_none_iff_exists'.mp (hbound z (List.mem_toFinset.mp hz))
    exact List.mem_toFinset.mpr (List.mem_map_of_mem (mem_entries_of_get? ht))
  calc met.length = met.toFinset.card := (List.toFinset_card_of_nodup hnodup).symm
    _ ≤ (b.entries.map Prod.fst).toFinset.card := Finset.card_le_card hkeys
    _ ≤ (b.entries.map Prod.fst).length := List.toFinset_card_le _
    _ = b.count := by rw [List.length_map, b.count_eq]

/-! ## Chains of variables -/

/-- The chain at a variable, with the variables it has met before, ends in a term. -/
inductive EndsIn (b : Bindings) : List String → String → Term → Prop
  | unbound {met : List String} {x : String} (hx : b.get? x = none) : EndsIn b met x (.var x)
  | again {met : List String} {x : String} (hx : x ∈ met) : EndsIn b met x (.var x)
  | value {met : List String} {x : String} {t : Term} (hx : x ∉ met) (ht : b.get? x = some t)
      (hne : ∀ y, t ≠ .var y) : EndsIn b met x t
  | step {met : List String} {x y : String} {t : Term} (hx : x ∉ met)
      (hy : b.get? x = some (.var y)) (h : EndsIn b (x :: met) y t) : EndsIn b met x t

/-- The first variable is bound to the second one. -/
def Aliases (b : Bindings) (x y : String) : Prop :=
  b.get? x = some (.var y)

theorem chase_of_circle (h : TransGen b.Aliases x x) (n : Nat) : b.chase n x = none := by
  induction n generalizing x with
  | zero => rfl
  | succ n ih =>
      obtain ⟨y, hxy, hyx⟩ := TransGen.head'_iff.mp h
      rw [chase, show b.get? x = some (.var y) from hxy]
      exact ih (TransGen.tail' hyx hxy)

/-- The two ways in which a chain is followed: up to its end, or up to a variable
that is met again. -/
theorem exists_endsIn (met : List String) (hnodup : met.Nodup) (hbound : ∀ z ∈ met, b.get? z ≠ none)
    (hpath : ∀ z ∈ met, TransGen b.Aliases z x) (hn : b.count < n + met.length) :
    ∃ t, b.EndsIn met x t ∧
      (b.chase n x = some t ∨ (∀ k, b.chase k x = none) ∧ t = .var (b.firstRepeat n met x)) := by
  induction n generalizing met x with
  | zero =>
      have hle := length_le_count hnodup hbound
      omega
  | succ n ih =>
      by_cases hx : x ∈ met
      · refine ⟨.var x, .again hx, .inr ⟨chase_of_circle (hpath x hx), ?_⟩⟩
        simp [firstRepeat, hx]
      · cases ht : b.get? x with
        | none => exact ⟨.var x, .unbound ht, .inl (by simp [chase, ht])⟩
        | some t =>
            rcases t.var_or_nonvar with ⟨y, rfl⟩ | hne
            · have hbound' : ∀ z ∈ x :: met, b.get? z ≠ none := by
                simpa [ht] using hbound
              have hpath' : ∀ z ∈ x :: met, TransGen b.Aliases z y := by
                refine List.forall_mem_cons.mpr ⟨.single ht, fun z hz => (hpath z hz).tail ht⟩
              have hn' : b.count < n + (x :: met).length := by
                rw [List.length_cons]
                omega
              obtain ⟨t, hend, hfound | ⟨hnone, hagain⟩⟩ :=
                ih (x :: met) (List.nodup_cons.mpr ⟨hx, hnodup⟩) hbound' hpath' hn'
              · exact ⟨t, .step hx ht hend, .inl (by simpa [chase, ht] using hfound)⟩
              · refine ⟨t, .step hx ht hend,
                  .inr ⟨fun k => ?_, by simpa [firstRepeat, hx, ht] using hagain⟩⟩
                cases k with
                | zero => rfl
                | succ k => simpa [chase, ht] using hnone k
            · exact ⟨t, .value hx ht hne, .inl (chase_of_nonvar ht hne n)⟩

theorem endsIn_deref (b : Bindings) (x : String) : b.EndsIn [] x (b.deref x) := by
  obtain ⟨t, hend, hfound⟩ := exists_endsIn (b := b) (x := x) (n := b.count + 1) [] .nil (by simp)
    (by simp) (by simp)
  have ht : b.deref x = t := by
    rw [deref]
    rcases hfound with hfound | ⟨hnone, hagain⟩
    · rw [hfound]
    · rw [hnone, hagain]
  rwa [ht]

theorem EndsIn.unique (h : b.EndsIn met x t) (h' : b.EndsIn met x u) : t = u := by
  induction h generalizing u with
  | unbound hx => cases h' <;> simp_all
  | again hx => cases h' <;> simp_all
  | value hx ht hne =>
      cases h' with
      | unbound hx' => simp [hx'] at ht
      | again hx' => exact (hx hx').elim
      | value _ ht' => exact Option.some.inj (ht.symm.trans ht')
      | step _ hy => exact (hne _ (Option.some.inj (ht.symm.trans hy))).elim
  | step hx hy _ ih =>
      cases h' with
      | unbound hx' => simp [hx'] at hy
      | again hx' => exact (hx hx').elim
      | value _ ht hne => exact (hne _ (Option.some.inj (ht.symm.trans hy))).elim
      | step _ hy' h' =>
          obtain rfl := Term.var.inj (Option.some.inj (hy.symm.trans hy'))
          exact ih h'

theorem endsIn_iff : b.EndsIn [] x t ↔ b.deref x = t :=
  ⟨(b.endsIn_deref x).unique, fun h => h ▸ b.endsIn_deref x⟩

/-- A variable that stops a chain was met on the way, by a chain that goes round from it. -/
theorem EndsIn.exists_round (h : b.EndsIn met x t) (ht : t = .var y) (hy : b.get? y ≠ none) :
    y ∈ met ∨ ∃ before, y ∉ before ∧ b.EndsIn before y (.var y) := by
  induction h with
  | unbound hx =>
      obtain rfl := Term.var.inj ht
      exact (hy hx).elim
  | again hx =>
      obtain rfl := Term.var.inj ht
      exact .inl hx
  | value _ _ hne => exact (hne y ht).elim
  | @step met x z t hx hz hend ih =>
      rcases ih ht with hmem | hround
      · rcases List.mem_cons.mp hmem with rfl | hmem
        · exact .inr ⟨met, hx, .step hx hz (ht ▸ hend)⟩
        · exact .inl hmem
      · exact .inr hround

/-- A chain does not depend on what was met before, unless it stops there. -/
theorem EndsIn.forget (before : List String) (h : b.EndsIn (met ++ before) x t)
    (ht : ∀ y ∈ before, t ≠ .var y) : b.EndsIn met x t := by
  generalize hall : met ++ before = all at h
  induction h generalizing met with
  | unbound hx => exact .unbound hx
  | @again all x hx =>
      rw [← hall, List.mem_append] at hx
      rcases hx with hx | hx
      · exact .again hx
      · exact (ht x hx rfl).elim
  | value hx hval hne =>
      rw [← hall, List.mem_append, not_or] at hx
      exact .value hx.1 hval hne
  | @step all x y t hx hy _ ih =>
      rw [← hall, List.mem_append, not_or] at hx
      exact .step hx.1 hy (ih ht (by rw [List.cons_append, hall]))

theorem deref_of_deref_var (h : b.deref x = .var y) : b.deref y = .var y := by
  by_cases hy : b.get? y = none
  · exact deref_of_unbound hy
  · rcases (endsIn_iff.mpr h).exists_round rfl hy with hmem | ⟨before, hnot, hround⟩
    · simp at hmem
    · exact endsIn_iff.mp (EndsIn.forget before hround fun z hz heq => hnot (Term.var.inj heq ▸ hz))

theorem resolve_resolve (b : Bindings) (t : Term) : b.resolve (b.resolve t) = b.resolve t := by
  rcases (b.resolve t).var_or_nonvar with ⟨y, hy⟩ | hne
  · rw [hy]
    rcases t.var_or_nonvar with ⟨x, rfl⟩ | ht
    · exact deref_of_deref_var hy
    · rw [resolve_of_nonvar ht] at hy
      exact (ht y hy).elim
  · exact resolve_of_nonvar hne

/-! ## Circles through compound terms -/

/-- The chain of the first variable ends in a compound term that mentions the second one. -/
def Nests (b : Bindings) (x y : String) : Prop :=
  ∃ f args, b.deref x = .compound f args ∧ y ∈ Term.varsAll args

/-- No circle through compound terms is reached. -/
def Clear (b : Bindings) (x : String) : Prop :=
  ∀ y, ReflTransGen b.Nests x y → ¬ TransGen b.Nests y y

theorem Nests.ne_none (h : b.Nests x y) : b.get? x ≠ none := by
  intro hx
  obtain ⟨f, args, hd, _⟩ := h
  simp [deref_of_unbound hx] at hd

theorem Clear.of_nests (hx : b.Clear x) (h : b.Nests x y) : b.Clear y :=
  fun z hz => hx z (.head h hz)

theorem clear_of_forall (h : ∀ y, b.Nests x y → b.Clear y) : b.Clear x := by
  intro y hxy hcircle
  rcases hxy.cases_head with rfl | ⟨z, hxz, hzy⟩
  · obtain ⟨z, hxz, hzx⟩ := TransGen.head'_iff.mp hcircle
    exact h z hxz x hzx hcircle
  · exact h z hxz y hzy hcircle

/-- Without a circle the variables on the way down are different, so the bound on the
depth suffices. -/
theorem exists_expand?_of_clear (met : List String) (hnodup : met.Nodup)
    (hbound : ∀ z ∈ met, b.get? z ≠ none) (hpath : ∀ z ∈ met, TransGen b.Nests z x)
    (hn : b.count < n + met.length) (hx : b.Clear x) :
    ∃ u, b.expand? n x = some u := by
  induction n generalizing met x with
  | zero =>
      have hle := length_le_count hnodup hbound
      omega
  | succ n ih =>
      rw [expand?]
      split
      · next f args hd =>
        have hargs : ∃ u, Term.subst? (b.expand? n) (.compound f args) = some u := by
          refine Term.exists_subst?_iff.mpr fun y hy => ?_
          have hxy : b.Nests x y := ⟨f, args, hd, hy⟩
          refine ih (x :: met) ?_ ?_ ?_ ?_ (hx.of_nests hxy)
          · exact List.nodup_cons.mpr ⟨fun hmem => hx x .refl (hpath x hmem), hnodup⟩
          · exact List.forall_mem_cons.mpr ⟨hxy.ne_none, hbound⟩
          · exact List.forall_mem_cons.mpr ⟨.single hxy, fun z hz => (hpath z hz).tail hxy⟩
          · rw [List.length_cons]
            omega
        exact hargs
      · exact ⟨_, rfl⟩

theorem exists_value?_of_clear (hx : b.Clear x) : ∃ u, b.value? x = some u :=
  exists_expand?_of_clear [] .nil (by simp) (by simp) (by simp) hx

/-! ## Substitution without a bound -/

/-- What substituting in a term gives, however deep it goes. -/
inductive Unfolds (b : Bindings) : Term → Term → Prop
  | leaf {t : Term} (h : t.isLeaf = true) : Unfolds b t t
  | free {x y : String} (h : b.deref x = .var y) : Unfolds b (.var x) (.var y)
  | bound {x : String} {u : Term} (h : ∀ y, b.deref x ≠ .var y) (hu : Unfolds b (b.deref x) u) :
      Unfolds b (.var x) u
  | compound {f : String} {args args' : List Term} (hlen : args.length = args'.length)
      (h : ∀ s t, (s, t) ∈ args.zip args' → Unfolds b s t) :
      Unfolds b (.compound f args) (.compound f args')

namespace Unfolds

theorem unique (h : b.Unfolds t u) {v : Term} (h' : b.Unfolds t v) : u = v := by
  induction h generalizing v with
  | leaf hleaf =>
      cases h' with
      | leaf => rfl
      | free | bound | compound => simp [Term.isLeaf] at hleaf
  | free hd =>
      cases h' with
      | leaf hleaf => simp [Term.isLeaf] at hleaf
      | free hd' => exact hd.symm.trans hd'
      | bound hne => exact (hne _ hd).elim
  | bound hne _ ih =>
      cases h' with
      | leaf hleaf => simp [Term.isLeaf] at hleaf
      | free hd => exact (hne _ hd).elim
      | bound _ hv => exact ih hv
  | @compound f args us hlen _ ih =>
      cases h' with
      | leaf hleaf => simp [Term.isLeaf] at hleaf
      | @compound _ _ vs hlen' h' =>
          have hargs : us = vs := by
            refine List.ext_getElem (hlen.symm.trans hlen') fun i hi hi' => ?_
            have hi'' : i < args.length := hlen ▸ hi
            exact ih _ _ (List.mem_iff_getElem.mpr ⟨i, by simp [hi, hi''], List.getElem_zip⟩)
              (h' _ _ (List.mem_iff_getElem.mpr ⟨i, by simp [hi', hi''], List.getElem_zip⟩))
          rw [hargs]

/-- Instances are unfolded variable by variable. -/
theorem apply {θ : String → Term} (h : ∀ x ∈ t.vars, b.Unfolds (.var x) (θ x)) :
    b.Unfolds t (t.apply θ) := by
  induction t with
  | var x => exact h x (by simp [Term.vars])
  | atom _ | int _ | float _ | str _ => exact .leaf rfl
  | compound f args ih =>
      rw [Term.apply_compound]
      refine .compound (by simp) fun s t hst => ?_
      obtain ⟨i, hi, heq⟩ := List.mem_iff_getElem.mp hst
      rw [List.getElem_zip, List.getElem_map] at heq
      obtain ⟨rfl, rfl⟩ := Prod.mk.inj heq
      refine ih _ (List.getElem_mem _) fun x hx => h x ?_
      exact Term.mem_vars_compound.mpr ⟨_, List.getElem_mem _, hx⟩

theorem clear (h : b.Unfolds t u) : ∀ x ∈ t.vars, b.Clear x := by
  induction h with
  | leaf hleaf => simp [Term.vars_of_isLeaf hleaf]
  | @free x y hd =>
      intro z hz
      obtain rfl : z = x := by simpa [Term.vars] using hz
      refine clear_of_forall fun y' hy' => ?_
      obtain ⟨f, args, hcompound, _⟩ := hy'
      simp [hd] at hcompound
  | @bound x u _ _ ih =>
      intro z hz
      obtain rfl : z = x := by simpa [Term.vars] using hz
      refine clear_of_forall fun y hy => ?_
      obtain ⟨f, args, hcompound, hmem⟩ := hy
      exact ih y (by rw [hcompound]; exact hmem)
  | @compound f args args' hlen _ ih =>
      intro x hx
      obtain ⟨a, ha, hxa⟩ := Term.mem_vars_compound.mp hx
      obtain ⟨i, hi, rfl⟩ := List.mem_iff_getElem.mp ha
      refine ih _ args'[i] (List.mem_iff_getElem.mpr ⟨i, ?_, List.getElem_zip⟩) x hxa
      simp [hi, ← hlen]

/-- Only variables that stand for themselves are left. -/
theorem deref_of_mem_vars (h : b.Unfolds t u) : ∀ y ∈ u.vars, b.deref y = .var y := by
  induction h with
  | leaf hleaf => simp [Term.vars_of_isLeaf hleaf]
  | free hd =>
      intro z hz
      obtain rfl := by simpa [Term.vars] using hz
      exact deref_of_deref_var hd
  | bound _ _ ih => exact ih
  | @compound f args args' hlen _ ih =>
      intro y hy
      obtain ⟨a, ha, hya⟩ := Term.mem_vars_compound.mp hy
      obtain ⟨i, hi, rfl⟩ := List.mem_iff_getElem.mp ha
      have hi' : i < args.length := hlen ▸ hi
      exact ih args[i] _ (List.mem_iff_getElem.mpr ⟨i, by simp [hi, hi'], List.getElem_zip⟩) y hya

end Unfolds

theorem unfolds_of_subst? {look : String → Option Term} (h : t.subst? look = some u)
    (hlook : ∀ x v, look x = some v → b.Unfolds (.var x) v) : b.Unfolds t u := by
  have hvars := Term.exists_subst?_iff.mp ⟨u, h⟩
  have hθ : ∀ x ∈ t.vars, look x = some ((look x).getD (.var x)) := by
    intro x hx
    obtain ⟨v, hv⟩ := hvars x hx
    rw [hv, Option.getD_some]
  rw [Term.subst?_eq_some hθ, Option.some.injEq] at h
  rw [← h]
  exact .apply fun x hx => hlook x _ (hθ x hx)

theorem unfolds_of_expand? (h : b.expand? n x = some u) : b.Unfolds (.var x) u := by
  induction n generalizing x u with
  | zero => simp [expand?] at h
  | succ n ih =>
      rcases (b.deref x).var_or_nonvar with ⟨y, hy⟩ | hne
      · obtain rfl : Term.var y = u := by simpa [expand?, hy] using h
        exact .free hy
      · have hvalue : (b.deref x).subst? (b.expand? n) = some u := by
          cases hd : b.deref x with
          | var y => exact (hne y hd).elim
          | _ => simpa [expand?, hd, Term.subst?] using h
        exact .bound hne (unfolds_of_subst? hvalue fun y v hv => ih hv)

theorem exists_substitute?_iff : (∃ u, b.substitute? t = some u) ↔ ∀ x ∈ t.vars, b.Clear x := by
  constructor
  · rintro ⟨u, hu⟩
    exact (unfolds_of_subst? hu fun _ _ => unfolds_of_expand?).clear
  · intro h
    exact Term.exists_subst?_iff.mpr fun x hx => exists_value?_of_clear (h x hx)

theorem unfolds_iff : b.Unfolds t u ↔ b.substitute? t = some u := by
  constructor
  · intro h
    obtain ⟨v, hv⟩ := exists_substitute?_iff.mpr h.clear
    rw [hv, h.unique (unfolds_of_subst? hv fun _ _ => unfolds_of_expand?)]
  · exact fun h => unfolds_of_subst? h fun _ _ => unfolds_of_expand?

theorem substitute?_of_forall_deref (h : ∀ y ∈ t.vars, b.deref y = .var y) :
    b.substitute? t = some t := by
  have hvalue : ∀ y ∈ t.vars, b.value? y = some (.var y) := by
    intro y hy
    simp [value?, expand?, h y hy]
  rw [substitute?, Term.subst?_eq_some hvalue, Term.apply_var_eq]

/-- For all bindings: following a chain ends, resolving twice is resolving once, and substituting in
a term has a result exactly if no variable that the term reaches lies on a circle through compound
terms. The result is then not changed by substituting again. -/
theorem substitute_returns_iff (b : Bindings) :
    (∀ x t, b.EndsIn [] x t ↔ b.deref x = t) ∧
    (∀ t, b.resolve (b.resolve t) = b.resolve t) ∧
    ∀ t, (∀ u, b.Unfolds t u ↔ b.substitute? t = some u) ∧
      ((∃ u, b.substitute? t = some u) ↔
        ∀ x ∈ t.vars, ∀ y, ReflTransGen b.Nests x y → ¬ TransGen b.Nests y y) ∧
      ∀ u, b.substitute? t = some u → b.substitute? u = some u := by
  refine ⟨fun x t => endsIn_iff, b.resolve_resolve,
    fun t => ⟨fun u => unfolds_iff, ?_, fun u hu => ?_⟩⟩
  · exact exists_substitute?_iff
  · exact substitute?_of_forall_deref (unfolds_iff.mpr hu).deref_of_mem_vars

example : (((∅ : Bindings).insert "X" (.var "Y")).insert "Y" (.var "X")).substitute?
    (.compound "f" [.var "X"]) = some (.compound "f" [.var "X"]) := rfl

example : (((∅ : Bindings).insert "X" (.var "Y")).insert "Y" (.compound "f" [.var "X"])).substitute?
    (.compound "g" [.var "X"]) = none := rfl

/-! ## Substitution along extensions -/

/-- The variables of an instance are the unbound variables that the term reaches. -/
theorem Acyclic.mem_vars_apply_image (hb : b.Acyclic) {v : String} :
    v ∈ (t.apply b.image).vars ↔ b.get? v = none ∧ ∃ x ∈ t.vars, ReflTransGen b.Leads x v := by
  simp only [Term.mem_vars_apply, hb.mem_vars_image]
  exact ⟨fun ⟨x, hx, hv, hreach⟩ => ⟨hv, x, hx, hreach⟩, fun ⟨hv, x, hx, hreach⟩ =>
    ⟨x, hx, hv, hreach⟩⟩

/-- Under later bindings nothing changes when the earlier ones are put in first. -/
theorem Acyclic.apply_image_of_extends {c : Bindings} (hb : b.Acyclic) (hc : c.Acyclic)
    (h : c.Extends b) (t : Term) : (t.apply b.image).apply c.image = t.apply c.image :=
  hb.apply_image (hc.solvedBy_image.of_extends h) t

/-- Substituting through acyclic bindings has a result, whose variables are the unbound variables
that the term reaches, and the occurs check finds exactly these. Substituting through later bindings
afterwards gives what substituting through them at once gives. -/
theorem substitute_composes {b c : Bindings} (hb : b.Acyclic) (hc : c.Acyclic) (h : c.Extends b)
    (t : Term) :
    ∃ u w, b.substitute? t = some u ∧ c.substitute? t = some w ∧ c.substitute? u = some w ∧
      (∀ v ∈ u.vars, b.get? v = none) ∧
      (∀ v, v ∈ u.vars ↔ b.get? v = none ∧ ∃ x ∈ t.vars, ReflTransGen b.Leads x v) ∧
      ∀ v, b.get? v = none → b.occurs? v t = some (decide (v ∈ u.vars)) := by
  refine ⟨_, _, hb.substitute?_eq t, hc.substitute?_eq t, ?_, ?_, ?_, ?_⟩
  · rw [hc.substitute?_eq, hb.apply_image_of_extends hc h]
  · exact fun v hv => (hb.mem_vars_apply_image.mp hv).1
  · exact fun v => hb.mem_vars_apply_image
  · exact fun v _ => hb.occurs?_eq v t

/-- A value mentions a variable that is bound only later, to a term with a
variable of that value. -/
theorem substitute_composes_late :
    let b := (∅ : Bindings).insert "X" (.compound "f" [.var "Y", .var "Z"])
    let c := b.insert "Y" (.compound "g" [.var "Z"])
    let t : Term := .compound "h" [.var "X", .var "Y"]
    b.Acyclic ∧ c.Acyclic ∧ c.Extends b ∧
      ∃ u w, b.substitute? t = some u ∧ c.substitute? t = some w ∧ c.substitute? u = some w ∧
        (∀ v ∈ u.vars, b.get? v = none) ∧
        (∀ v, v ∈ u.vars ↔ b.get? v = none ∧ ∃ x ∈ t.vars, ReflTransGen b.Leads x v) ∧
        ∀ v, b.get? v = none → b.occurs? v t = some (decide (v ∈ u.vars)) := by
  intro b c t
  have hb : b.Acyclic := acyclic_empty.insert (get?_empty "X") (by decide)
  have hy : b.get? "Y" = none := by rfl
  have hc : c.Acyclic := hb.insert hy (by decide)
  have h : c.Extends b := extends_insert hy _
  exact ⟨hb, hc, h, substitute_composes hb hc h t⟩

end Bindings

end Clausal
