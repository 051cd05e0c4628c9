import Clausal.Proofs.Bindings.Extension

/-!
# Chains that end

A chain of variables has an end unless it closes on itself. In acyclic bindings every chain ends,
but not only there: where a variable is bound to a compound term that mentions it, chains end in
that term. Binding the end of one chain to the end of another one keeps all chains ending, whatever
circles it closes through compound terms. The chains that ended in the bound variable go on to its
new value, all others stay.
-/

namespace Clausal.Bindings

variable {b : Bindings} {n : Nat} {x y z : String} {t u : Term}

def ChainsEnd (b : Bindings) : Prop :=
  ∀ x, b.chase (b.count + 1) x ≠ none

theorem Acyclic.chainsEnd (hb : b.Acyclic) : b.ChainsEnd := by
  intro x
  rw [hb.chase_eq (Nat.lt_succ_of_le (b.rank_le_count x))]
  exact Option.some_ne_none _

theorem get?_of_chase (h : b.chase n x = some (.var y)) : b.get? y = none := by
  induction n generalizing x with
  | zero => simp [chase] at h
  | succ n ih =>
      rw [chase] at h
      split at h
      · next hfree =>
        obtain rfl : x = y := by simpa using h
        exact hfree
      · exact ih h
      · next t hne _ => exact (hne y (Option.some.inj h)).elim

theorem chase_succ (h : b.chase n x = some t) : b.chase (n + 1) x = some t := by
  induction n generalizing x with
  | zero => simp [chase] at h
  | succ n ih =>
      rw [chase] at h ⊢
      split at h
      · exact h
      · exact ih h
      · exact h

/-! ## A new entry -/

section Insert

variable (hx : b.get? x = none)

include hx

theorem chase_insert_of_ne (h : b.chase n z = some u) (hu : u ≠ .var x) :
    (b.insert x t).chase n z = some u := by
  induction n generalizing z with
  | zero => simp [chase] at h
  | succ n ih =>
      have hxz : x ≠ z := by
        rintro rfl
        rw [chase, hx] at h
        exact hu (Option.some.inj h).symm
      rw [chase] at h
      rw [chase, get?_insert, if_neg hxz]
      split at h
      · exact h
      · exact ih h
      · exact h

variable (ht : ∀ y, t = .var y → b.get? y = none) (htx : t ≠ .var x)

include ht htx

omit hx in
theorem chase_insert_self (n : Nat) : (b.insert x t).chase (n + 2) x = some t := by
  rcases t.var_or_nonvar with ⟨y, rfl⟩ | hne
  · have hxy : x ≠ y := fun heq => htx (by rw [heq])
    have hy : (b.insert x (.var y)).get? y = none := by rw [get?_insert, if_neg hxy, ht y rfl]
    simp only [chase, get?_insert b x x, if_true, hy]
  · exact chase_of_nonvar (by rw [get?_insert, if_pos rfl]) hne (n + 1)

theorem chase_insert_of_eq (h : b.chase n z = some (.var x)) :
    (b.insert x t).chase (n + 1) z = some t := by
  induction n generalizing z with
  | zero => simp [chase] at h
  | succ n ih =>
      by_cases hxz : x = z
      · subst hxz
        exact chase_insert_self ht htx n
      · rw [chase] at h
        rw [chase, get?_insert, if_neg hxz]
        split at h
        · obtain rfl : z = x := by simpa using h
          exact (hxz rfl).elim
        · exact ih h
        · next v hv _ => exact (hv x (Option.some.inj h)).elim

end Insert

namespace ChainsEnd

variable (hb : b.ChainsEnd)

include hb

theorem chase_eq (x : String) : b.chase (b.count + 1) x = some (b.deref x) := by
  rw [deref]
  cases h : b.chase (b.count + 1) x with
  | none => exact (hb x h).elim
  | some t => rfl

theorem get?_of_resolve_var (h : b.resolve t = .var y) : b.get? y = none := by
  cases t with
  | var x =>
      refine get?_of_chase (n := b.count + 1) (x := x) ?_
      rw [hb.chase_eq x]
      exact congrArg some h
  | _ => simp [resolve] at h

variable (hx : b.get? x = none) (ht : ∀ y, t = .var y → b.get? y = none) (htx : t ≠ .var x)

include hx ht htx

theorem chase_insert (z : String) :
    b.deref z = .var x ∧ (b.insert x t).chase (b.count + 2) z = some t ∨
      b.deref z ≠ .var x ∧ (b.insert x t).chase (b.count + 2) z = some (b.deref z) := by
  have hz := hb.chase_eq z
  by_cases hroot : b.deref z = .var x
  · rw [hroot] at hz
    exact .inl ⟨hroot, chase_insert_of_eq hx ht htx hz⟩
  · exact .inr ⟨hroot, chase_succ (chase_insert_of_ne hx hz hroot)⟩

theorem insert : (b.insert x t).ChainsEnd := by
  intro z hz
  change (b.insert x t).chase (b.count + 2) z = none at hz
  rcases hb.chase_insert hx ht htx z with ⟨_, h⟩ | ⟨_, h⟩
  · rw [h] at hz
    exact Option.some_ne_none _ hz
  · rw [h] at hz
    exact Option.some_ne_none _ hz

theorem deref_insert (z : String) :
    b.deref z = .var x ∧ (b.insert x t).deref z = t ∨
      b.deref z ≠ .var x ∧ (b.insert x t).deref z = b.deref z := by
  have hz : (b.insert x t).chase (b.count + 2) z = some ((b.insert x t).deref z) :=
    (hb.insert hx ht htx).chase_eq z
  refine (hb.chase_insert hx ht htx z).imp (And.imp_right fun h => ?_) (And.imp_right fun h => ?_)
  · exact Option.some.inj (hz.symm.trans h)
  · exact Option.some.inj (hz.symm.trans h)

end ChainsEnd

/-! ## Circles -/

theorem Extends.leads_le {c : Bindings} (h : c.Extends b) : b.Leads ≤ c.Leads := by
  rintro x y ⟨t, ht, hy⟩
  exact ⟨t, h x t ht, hy⟩

/-- A circle stays when bindings are extended. -/
theorem Acyclic.of_extends {c : Bindings} (hc : c.Acyclic) (h : c.Extends b) : b.Acyclic :=
  fun x hx => hc x (Relation.TransGen.mono h.leads_le x x hx)

/-- The occurs check refuses only what closes a circle. -/
theorem Acyclic.occurs?_of_insert (hb : b.Acyclic) (hx : b.get? x = none)
    (h : (b.insert x t).Acyclic) :
    b.occurs? x t = some false := by
  rw [hb.occurs?_eq, Option.some.injEq, decide_eq_false_iff_not]
  intro hocc
  obtain ⟨y, hy, hv⟩ := Term.mem_vars_apply.mp hocc
  have hback :=
    Relation.ReflTransGen.mono (extends_insert hx t).leads_le y x (hb.mem_vars_image.mp hv).2
  exact h x (.head' ⟨t, by rw [get?_insert, if_pos rfl], hy⟩ hback)

end Clausal.Bindings
