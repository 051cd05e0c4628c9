import Clausal.Proofs.Bindings.Alike
import Clausal.Proofs.Unify.Soundness

/-!
# Fresh names in unification

A name is fresh if neither the bindings nor the other side know it, as the names of a copied clause
head are. Pairs are unified from left to right and a variable on the left is bound first. So a fresh
name that stands alone on the left, before it occurs anywhere else, is bound. If no name occurs
twice on the left, then nothing but a fresh name is ever bound to a variable.
-/

namespace Clausal

/-- Bindings in which a name does not occur. -/
structure Bindings.Lacks (b : Bindings) (x : String) : Prop where
  keys : b.Keys (Term.Within (· ≠ x))
  values : b.Values (Term.Within (· ≠ x))

namespace Bindings.Lacks

variable {b : Bindings} {x y : String} {u : Term}

theorem get?_eq_none (h : b.Lacks x) : b.get? x = none := by
  cases hx : b.get? x with
  | none => rfl
  | some u => exact (Term.within_var.mp (h.keys x u hx) rfl).elim

theorem resolve_var (h : b.Lacks x) : b.resolve (.var x) = .var x := by
  rw [resolve, deref_of_unbound h.get?_eq_none]

theorem insert (h : b.Lacks x) (hy : y ≠ x) (hu : u.Within (· ≠ x)) : (b.insert y u).Lacks x :=
  ⟨h.keys.insert u (Term.within_var.mpr hy), h.values.insert y hu⟩

end Bindings.Lacks

namespace Unify

/-- A move looks at the first pair only. -/
theorem Move.frame {check : Bool} {s t : Term} {ps : List (Term × Term)}
    {b : Bindings} {q : Problem} (h : Move check ⟨(s, t) :: ps, b⟩ q) :
    ∃ qs c, q = ⟨qs ++ ps, c⟩ ∧ ∀ rest, Move check ⟨(s, t) :: rest, b⟩ ⟨qs ++ rest, c⟩ := by
  cases h with
  | same hs ht => exact ⟨[], b, rfl, fun rest => .same hs ht⟩
  | bindLeft hs ht hocc => exact ⟨[], _, rfl, fun rest => .bindLeft hs ht hocc⟩
  | bindRight hs ht hocc => exact ⟨[], _, rfl, fun rest => .bindRight hs ht hocc⟩
  | decompose hs ht hlen => exact ⟨_, b, rfl, fun rest => .decompose hs ht hlen⟩
  | leaves hs hclose => exact ⟨[], b, rfl, fun rest => .leaves hs hclose⟩

/-! ## A name that stands alone -/

/-- The name stands alone on the left of a pair, and occurs neither in what comes before nor in what
stands on the right. -/
def Problem.Awaits (x : String) (p : Problem) : Prop :=
  ∃ before t after, p.pairs = before ++ (.var x, t) :: after ∧ t.Within (· ≠ x) ∧
    (∀ l r, (l, r) ∈ before → l.Within (· ≠ x) ∧ r.Within (· ≠ x)) ∧ p.bindings.Lacks x

section Awaits

variable {check : Bool} {p q : Problem} {x : String}

theorem Move.awaits (h : Move check p q) (hx : p.Awaits x) :
    q.Awaits x ∨ ∃ u, q.bindings.get? x = some u := by
  obtain ⟨before, t, after, hpairs, ht, hbefore, hlacks⟩ := hx
  obtain ⟨ps, b⟩ := p
  obtain rfl : ps = before ++ (.var x, t) :: after := hpairs
  cases before with
  | nil =>
      -- The name is resolved to itself, and the other side is another term: it gets bound.
      have hleft := hlacks.resolve_var
      cases h with
      | @same _ _ _ _ y hs hsame =>
          obtain rfl : x = y := by simpa [hleft] using hs
          have hright := hlacks.values.resolve ht
          rw [hsame] at hright
          exact (Term.within_var.mp hright rfl).elim
      | @bindLeft _ _ _ _ y hs =>
          obtain rfl : x = y := by simpa [hleft] using hs
          exact .inr ⟨_, by rw [Bindings.get?_insert, if_pos rfl]⟩
      | bindRight hs => exact (hs x hleft).elim
      | decompose hs => simp [hleft] at hs
      | leaves hs => simp [hleft, Term.isLeaf] at hs
  | cons pair before =>
      obtain ⟨l, r⟩ := pair
      -- The name keeps waiting: the move is one of the pairs in front of it alone.
      obtain ⟨qs, c, rfl, hmove⟩ := h.frame
      have hall : Problem.All (Term.Within (· ≠ x)) ⟨(l, r) :: before, b⟩ :=
        ⟨hbefore, hlacks.values⟩
      have hnext := (hmove before).all (Term.hereditary_within _) hall
      have hkeys := (hmove before).keys hall hlacks.keys
      exact .inl
        ⟨qs ++ before, t, after, (List.append_assoc _ _ _).symm, ht, hnext.1, hkeys, hnext.2⟩

theorem Moves.awaits (h : Moves true p q) (hp : p.bindings.Acyclic) (hx : p.Awaits x) :
    q.Awaits x ∨ ∃ u, q.bindings.get? x = some u := by
  induction h with
  | refl => exact .inl hx
  | tail hmoves hmove ih =>
      rcases ih with hawaits | ⟨u, hu⟩
      · exact hmove.awaits hawaits
      · exact .inr ⟨u, hmove.extends_bindings (Moves.acyclic hmoves hp) x u hu⟩

end Awaits

/-! ## Names that do not repeat -/

/-- The names on the left belong to a class, occur only once, and are known neither to the right nor
to the bindings. -/
structure Problem.FreshLeft (F : String → Prop) (p : Problem) : Prop where
  nodup : (Term.varsAll (p.pairs.map Prod.fst)).Nodup
  fresh : ∀ x ∈ Term.varsAll (p.pairs.map Prod.fst), F x
  right : ∀ x ∈ Term.varsAll (p.pairs.map Prod.fst), ∀ l r, (l, r) ∈ p.pairs → r.Within (· ≠ x)
  lacks : ∀ x ∈ Term.varsAll (p.pairs.map Prod.fst), p.bindings.Lacks x

namespace Problem.FreshLeft

variable {F : String → Prop} {s t : Term} {ps : List (Term × Term)} {b : Bindings}

theorem tail (h : FreshLeft F ⟨(s, t) :: ps, b⟩) : FreshLeft F ⟨ps, b⟩ := by
  have hmem : ∀ x ∈ Term.varsAll (ps.map Prod.fst), x ∈ s.vars ++ Term.varsAll (ps.map Prod.fst) :=
    fun x hx => List.mem_append_right _ hx
  exact ⟨h.nodup.of_append_right, fun x hx => h.fresh x (hmem x hx),
    fun x hx l r hlr => h.right x (hmem x hx) l r (List.mem_cons_of_mem _ hlr),
    fun x hx => h.lacks x (hmem x hx)⟩

theorem resolve_left (h : FreshLeft F ⟨(s, t) :: ps, b⟩) : b.resolve s = s := by
  rcases s.var_or_nonvar with ⟨x, rfl⟩ | hs
  · exact (h.lacks x (List.mem_append_left _ List.mem_cons_self)).resolve_var
  · exact Bindings.resolve_of_nonvar hs

/-- The names that are left on the left do not occur in the first pair. -/
theorem within_first (h : FreshLeft F ⟨(s, t) :: ps, b⟩) {x : String}
    (hx : x ∈ Term.varsAll (ps.map Prod.fst)) :
    s.Within (· ≠ x) ∧ (b.resolve t).Within (· ≠ x) := by
  have hmem : x ∈ s.vars ++ Term.varsAll (ps.map Prod.fst) := List.mem_append_right _ hx
  refine ⟨fun y hy => ?_, ?_⟩
  · exact (List.nodup_append.mp h.nodup).2.2 y hy x hx
  · exact (h.lacks x hmem).values.resolve (h.right x hmem s t List.mem_cons_self)

theorem insert {y : String} {u : Term} (h : FreshLeft F ⟨ps, b⟩)
    (hnew : ∀ x ∈ Term.varsAll (ps.map Prod.fst), y ≠ x ∧ u.Within (· ≠ x)) :
    FreshLeft F ⟨ps, b.insert y u⟩ :=
  ⟨h.nodup, h.fresh, h.right, fun x hx => (h.lacks x hx).insert (hnew x hx).1 (hnew x hx).2⟩

theorem decompose {f : String} {ss ts : List Term} (h : FreshLeft F ⟨(.compound f ss, t) :: ps, b⟩)
    (ht : b.resolve t = .compound f ts) (hlen : ss.length = ts.length) :
    FreshLeft F ⟨ss.zip ts ++ ps, b⟩ := by
  have hlefts : Term.varsAll ((ss.zip ts ++ ps).map Prod.fst) =
      Term.varsAll (((Term.compound f ss, t) :: ps).map Prod.fst) := by
    rw [List.map_append, List.map_fst_zip hlen.le, Term.varsAll_eq, List.flatMap_append,
      ← Term.varsAll_eq, ← Term.varsAll_eq]
    rfl
  refine ⟨hlefts ▸ h.nodup, hlefts ▸ h.fresh, fun x hx l r hlr => ?_, hlefts ▸ h.lacks⟩
  rw [hlefts] at hx
  rcases List.mem_append.mp hlr with hzip | hrest
  · have hright := (h.lacks x hx).values.resolve (h.right x hx _ t List.mem_cons_self)
    rw [ht] at hright
    exact Term.hereditary_within _ f ts hright r (List.of_mem_zip hzip).2
  · exact h.right x hx l r (List.mem_cons_of_mem _ hrest)

end Problem.FreshLeft

end Unify

/-- Only names of a class are bound to variables. -/
def Bindings.AliasesOnly (F : String → Prop) (b : Bindings) : Prop :=
  ∀ x y, b.get? x = some (.var y) → F x

theorem Bindings.AliasesOnly.insert {F : String → Prop} {b : Bindings} {x : String} {u : Term}
    (h : b.AliasesOnly F) (hx : ∀ y, u = .var y → F x) : (b.insert x u).AliasesOnly F := by
  intro z y hz
  rw [get?_insert] at hz
  split at hz
  · next hxz => exact hxz ▸ hx y (Option.some.inj hz)
  · exact h z y hz

namespace Unify

variable {check : Bool} {p q : Problem} {F : String → Prop}

theorem Move.aliasesOnly (h : Move check p q) (hleft : p.FreshLeft F)
    (hb : p.bindings.AliasesOnly F) : q.FreshLeft F ∧ q.bindings.AliasesOnly F := by
  have hresolve : ∀ {s t ps b}, p = ⟨(s, t) :: ps, b⟩ → b.resolve s = s := by
    rintro s t ps b rfl
    exact hleft.resolve_left
  cases h with
  | same | leaves => exact ⟨hleft.tail, hb⟩
  | @bindLeft s t ps b x hs =>
      rw [hresolve rfl] at hs
      subst hs
      refine ⟨hleft.tail.insert fun z hz => ?_, hb.insert fun _ _ => ?_⟩
      · obtain ⟨hfirst, hright⟩ := hleft.within_first hz
        exact ⟨hfirst x List.mem_cons_self, hright⟩
      · exact hleft.fresh x (List.mem_append_left _ List.mem_cons_self)
  | @bindRight s t ps b y hs ht =>
      -- The right side is bound only where the left one is no variable.
      refine ⟨hleft.tail.insert fun z hz => ?_, hb.insert fun x hx => (hs x hx).elim⟩
      obtain ⟨hfirst, hright⟩ := hleft.within_first hz
      rw [ht] at hright
      rw [hresolve rfl]
      exact ⟨hright y List.mem_cons_self, hfirst⟩
  | @decompose s t ps b f ss ts hs ht hlen =>
      rw [hresolve rfl] at hs
      subst hs
      exact ⟨hleft.decompose ht hlen, hb⟩

theorem Moves.aliasesOnly (h : Moves check p q) (hleft : p.FreshLeft F)
    (hb : p.bindings.AliasesOnly F) : q.FreshLeft F ∧ q.bindings.AliasesOnly F := by
  induction h with
  | refl => exact ⟨hleft, hb⟩
  | tail _ hmove ih => exact hmove.aliasesOnly ih.1 ih.2

end Unify

/-! ## Lists of arguments -/

namespace Unifier

variable {u : Unifier} {b c : Bindings} {ts : List Term}

/-- The first argument in which a fresh name occurs is the name itself: it gets bound. -/
theorem exists_of_unifyArgs_var (hu : u.occursCheck = true) (hb : b.Acyclic) {x : String}
    {before after : List Term}
    (hunify : u.unifyArgs (before ++ .var x :: after) ts b = .ok (some c))
    (hbefore : ∀ a ∈ before, a.Within (· ≠ x)) (hts : ∀ a ∈ ts, a.Within (· ≠ x))
    (hlacks : b.Lacks x) : ∃ v, c.get? x = some v := by
  have hlen := length_eq_of_unifyArgs hu hb hunify
  have hmoves := moves_of_unifyArgs hu hb hunify
  -- The arguments on the right are split at the same place.
  obtain ⟨rights, t, rest, rfl, hrights⟩ : ∃ rights t rest, ts = rights ++ t :: rest ∧
      before.length = rights.length := by
    have hlt : before.length < ts.length := by simp [← hlen]
    refine ⟨ts.take before.length, ts[before.length], ts.drop (before.length + 1), ?_, ?_⟩
    · rw [← List.drop_eq_getElem_cons hlt, List.take_append_drop]
    · rw [List.length_take, Nat.min_eq_left hlt.le]
  rw [List.zip_append hrights, List.zip_cons_cons] at hmoves
  have hawaits : Unify.Problem.Awaits x
      ⟨before.zip rights ++ (.var x, t) :: after.zip rest, b⟩ := by
    refine ⟨before.zip rights, t, after.zip rest, rfl, hts t (by simp), fun l r hlr => ?_, hlacks⟩
    obtain ⟨hl, hr⟩ := List.of_mem_zip hlr
    exact ⟨hbefore l hl, hts r (List.mem_append_left _ hr)⟩
  rcases hmoves.awaits hb hawaits with ⟨_, _, _, hpairs, _⟩ | hbound
  · simp at hpairs
  · exact hbound

/-- No name occurs twice in the arguments on the left, and all are fresh: nothing else gets
bound to a variable. -/
theorem aliasesOnly_of_unifyArgs (hu : u.occursCheck = true) (hb : b.Acyclic) {ss : List Term}
    (hunify : u.unifyArgs ss ts b = .ok (some c)) {F : String → Prop}
    (hnodup : (Term.varsAll ss).Nodup) (hfresh : ∀ x ∈ Term.varsAll ss, F x ∧ b.Lacks x ∧
      ∀ a ∈ ts, a.Within (· ≠ x)) (haliases : b.AliasesOnly F) : c.AliasesOnly F := by
  have hlefts : (ss.zip ts).map Prod.fst = ss :=
    List.map_fst_zip (length_eq_of_unifyArgs hu hb hunify).le
  have hleft : Unify.Problem.FreshLeft F ⟨ss.zip ts, b⟩ := by
    refine ⟨hlefts.symm ▸ hnodup, fun x hx => ?_, fun x hx l r hlr => ?_, fun x hx => ?_⟩
    all_goals
      rw [hlefts] at hx
      obtain ⟨hF, hlacks, hright⟩ := hfresh x hx
    · exact hF
    · exact hright r (List.of_mem_zip hlr).2
    · exact hlacks
  exact ((moves_of_unifyArgs hu hb hunify).aliasesOnly hleft haliases).2

/-- Unifying with a leaf binds at most one variable, and that to the leaf. -/
theorem aliasesOnly_of_unify_leaf (hu : u.occursCheck = true) (hb : b.Acyclic) {s t : Term}
    (ht : t.isLeaf = true) (hunify : u.unify s t b = .ok (some c)) {F : String → Prop}
    (haliases : b.AliasesOnly F) : c.AliasesOnly F := by
  have hvar : ∀ x, t ≠ .var x := by
    rintro x rfl
    simp [Term.isLeaf] at ht
  have hright : b.resolve t = t := Bindings.resolve_of_nonvar hvar
  rcases (moves_of_unify hu hb hunify).cases_head with hsame | ⟨q, hmove, hrest⟩
  · cases hsame
  have hend : ∀ {d : Bindings}, q = ⟨[], d⟩ → c = d := by
    rintro d rfl
    rcases hrest.cases_head with hsame | ⟨_, hmore, _⟩
    · cases hsame
      rfl
    · cases hmore
  cases hmove with
  | same _ hsame => exact (hvar _ (hright.symm.trans hsame)).elim
  | bindLeft =>
      rw [hend rfl, hright]
      exact haliases.insert fun y hy => (hvar y hy).elim
  | bindRight _ hy => exact (hvar _ (hright.symm.trans hy)).elim
  | decompose _ hcompound =>
      rw [hright] at hcompound
      simp [hcompound, Term.isLeaf] at ht
  | leaves => rwa [hend rfl]

end Unifier

end Clausal
