import Clausal.Proofs.Unify.Invariants

/-!
# The nesting of a unification

Under acyclic bindings a unification ends within its first bound. A path of nested pairs descends
into compound terms on its left side, and each of them is a compound part of the terms or values of
the start. Under the bindings at the end of the path the instances along it get smaller and smaller,
so no compound term comes twice, although bindings are added while the path is walked. A path is
therefore not longer than the list of all compound parts.
-/

namespace Clausal

namespace Term

mutual

/-- The compound subterms of a term, the term itself included. -/
def compoundParts : Term → List Term
  | .compound f args => .compound f args :: compoundPartsAll args
  | _ => []

def compoundPartsAll : List Term → List Term
  | [] => []
  | t :: ts => compoundParts t ++ compoundPartsAll ts

end

theorem compoundPartsAll_eq (ts : List Term) : compoundPartsAll ts = ts.flatMap compoundParts := by
  induction ts with
  | nil => rfl
  | cons t ts ih => simp [compoundPartsAll, ih]

theorem compoundParts_subset {t : Term} {ts : List Term} (ht : t ∈ ts) :
    t.compoundParts ⊆ compoundPartsAll ts := by
  rw [compoundPartsAll_eq]
  intro c hc
  exact List.mem_flatMap.mpr ⟨t, ht, hc⟩

theorem length_compoundPartsAll_of_forall {ts : List Term}
    (h : ∀ t ∈ ts, t.compoundParts.length = t.compounds) :
    (compoundPartsAll ts).length = compoundsAll ts := by
  induction ts with
  | nil => rfl
  | cons t ts ih =>
      have hts := ih fun u hu => h u (List.mem_cons_of_mem t hu)
      simp [compoundPartsAll, compoundsAll, h t List.mem_cons_self, hts]

theorem length_compoundParts (t : Term) : t.compoundParts.length = t.compounds := by
  induction t with
  | var _ | atom _ | int _ | float _ | str _ => rfl
  | compound f args ih =>
      simp [compoundParts, compounds, length_compoundPartsAll_of_forall ih]

theorem length_compoundPartsAll (ts : List Term) :
    (compoundPartsAll ts).length = compoundsAll ts :=
  length_compoundPartsAll_of_forall fun t _ => length_compoundParts t

theorem hereditary_compoundParts (U : List Term) :
    Hereditary fun t => t.compoundParts ⊆ U := by
  intro f args h a ha c hc
  refine h ?_
  rw [compoundParts]
  exact List.mem_cons_of_mem _ (compoundParts_subset ha hc)

end Term

namespace Bindings

/-- The compound subterms of the values of all entries. -/
def compoundParts (b : Bindings) : List Term :=
  b.entries.flatMap fun e => e.2.compoundParts

theorem length_compoundParts (b : Bindings) : b.compoundParts.length = b.weight := by
  rw [compoundParts, b.weight_eq]
  induction b.entries with
  | nil => rfl
  | cons e es ih => simp [weightOf, ih, Term.length_compoundParts]

theorem values_compoundParts (b : Bindings) :
    b.Values fun t => t.compoundParts ⊆ b.compoundParts := by
  intro x t h c hc
  exact List.mem_flatMap.mpr ⟨(x, t), mem_entries_of_get? h, hc⟩

end Bindings

namespace Unify

/-- Under all later bindings the first term has a smaller instance than the second one. -/
def Below (b : Bindings) (s t : Term) : Prop :=
  ∀ d : Bindings, d.Acyclic → d.Extends b →
    (s.apply d.image).compounds < (t.apply d.image).compounds

theorem Below.trans_resolve {b c : Bindings} {s t u : Term} {f : String} {ss : List Term}
    (h : Below b s t) (hb : b.Acyclic) (hs : b.resolve s = .compound f ss) (hc : c.Extends b)
    (hu : u ∈ ss) : Below c u t := by
  intro d hd hdc
  have hdb : d.Extends b := hdc.trans hc
  have hpart : (u.apply d.image).compounds < ((b.resolve s).apply d.image).compounds := by
    rw [hs, Term.apply_compound]
    exact Term.compounds_lt_compound (List.mem_map_of_mem hu)
  rw [hb.apply_resolve (hd.solvedBy_image.of_extends hdb)] at hpart
  exact hpart.trans (h d hd hdb)

theorem below_of_mem {b : Bindings} {f : String} {ss : List Term} {u : Term} (hu : u ∈ ss) :
    Below b u (.compound f ss) := by
  intro d _ _
  rw [Term.apply_compound]
  exact Term.compounds_lt_compound (List.mem_map_of_mem hu)

theorem bind_ne_endless {b : Bindings} (hb : b.Acyclic) (check : Bool) (x : String) (t : Term)
    (log : List Step) : (bind check x t b log).1 ≠ .endless := by
  rw [bind, hb.occurs?_eq]
  cases check with
  | false => simp
  | true => cases decide (x ∈ (t.apply b.image).vars) <;> simp

theorem pairs_ne_endless {pair : Term → Term → Bindings → List Step → Run} {P : Term → Prop}
    (hP : Term.Hereditary P) (hpair : ∀ s t b log, Explained true [(s, t)] b (pair s t b log).1)
    {ss ts : List Term} {b : Bindings} (hss : ∀ s ∈ ss, P s) (hts : ∀ t ∈ ts, P t)
    (hb : b.Acyclic) (hvalues : b.Values P)
    (hends : ∀ s ∈ ss, ∀ t ∈ ts, ∀ c log, c.Acyclic → c.Extends b → c.Values P →
      (pair s t c log).1 ≠ .endless) (k : Nat) (log : List Step) :
    (pairs pair k ss ts b log).1 ≠ .endless := by
  induction ss generalizing k ts b log with
  | nil => simp [pairs]
  | cons s ss ih =>
      cases ts with
      | nil => simp [pairs]
      | cons t ts =>
          have hfirst :=
            hends s (by simp) t (by simp) b (.argument k s t :: log) hb (.refl b) hvalues
          have hexp := hpair s t b (.argument k s t :: log)
          rcases hrun : pair s t b (.argument k s t :: log) with ⟨o, log'⟩
          rw [hrun] at hfirst hexp
          cases o with
          | endless => exact (hfirst rfl).elim
          | clash => simp [pairs_of_stopped hrun]
          | unified c =>
              rw [pairs_of_unified hrun]
              -- the later pairs run under the bindings that the first pair leaves
              have hmoves : Moves true ⟨[(s, t)], b⟩ ⟨[], c⟩ := hexp []
              have hall : Problem.All P ⟨[(s, t)], b⟩ := by
                refine ⟨fun s' t' hst => ?_, hvalues⟩
                obtain ⟨rfl, rfl⟩ : s' = s ∧ t' = t := by simpa using hst
                exact ⟨hss s' (by simp), hts t' (by simp)⟩
              have hcb : c.Extends b := hmoves.extends_bindings hb
              refine ih (fun s' hs' => hss s' (by simp [hs']))
                (fun t' ht' => hts t' (by simp [ht'])) (hmoves.acyclic hb)
                (hmoves.all hP hall).2 ?_ (k + 1) log'
              intro s' hs' t' ht' d log'' hd hdc hdv
              exact hends s' (by simp [hs']) t' (by simp [ht']) d log'' hd (hdc.trans hcb) hdv

/-- A nested unification ends when the bound and the compound terms already met on the path together
exceed the number of compound parts. -/
theorem terms_ne_endless {U : List Term} (seen : List Term) {n : Nat} {s t : Term} {b : Bindings}
    (log : List Step) (hb : b.Acyclic) (hs : s.compoundParts ⊆ U) (ht : t.compoundParts ⊆ U)
    (hvalues : b.Values fun u => u.compoundParts ⊆ U) (hnodup : seen.Nodup) (hseen : seen ⊆ U)
    (hbelow : ∀ c ∈ seen, Below b s c) (hn : U.length < n + seen.length) :
    (terms true n s t b log).1 ≠ .endless := by
  induction n generalizing seen s t b log with
  | zero =>
      have hle := (List.subperm_of_subset hnodup hseen).length_le
      omega
  | succ n ih =>
      rw [terms]
      refine resolved_cases (motive := fun r => r.1 ≠ .endless) ?_ ?_ ?_ ?_ ?_ ?_
      · simp
      · exact fun x _ _ => bind_ne_endless hb true x _ _
      · exact fun y _ _ => bind_ne_endless hb true y _ _
      · intro f ss ts hrs hrt
        rw [arguments]
        split
        · have hparts : (Term.compound f ss).compoundParts ⊆ U :=
            hrs ▸ hvalues.resolve hs
          have hparts' : (Term.compound f ts).compoundParts ⊆ U :=
            hrt ▸ hvalues.resolve ht
          have hnew : Term.compound f ss ∉ seen := by
            intro hmem
            have hlt := hbelow _ hmem b hb (.refl b)
            rw [← hrs, hb.apply_resolve hb.solvedBy_image] at hlt
            exact hlt.false
          have hmem : Term.compound f ss ∈ U := hparts (by simp [Term.compoundParts])
          refine pairs_ne_endless (Term.hereditary_compoundParts U) (explained_terms true n)
            (Term.hereditary_compoundParts U f ss hparts)
            (Term.hereditary_compoundParts U f ts hparts') hb hvalues ?_ 0 _
          intro s' hs' t' ht' c log' hc hcb hcv
          refine ih (.compound f ss :: seen) log' hc
            (Term.hereditary_compoundParts U f ss hparts s' hs')
            (Term.hereditary_compoundParts U f ts hparts' t' ht') hcv
            (List.nodup_cons.mpr ⟨hnew, hnodup⟩) (List.cons_subset.mpr ⟨hmem, hseen⟩) ?_ ?_
          · intro u hu
            rcases List.mem_cons.mp hu with rfl | hu
            · exact below_of_mem hs'
            · exact (hbelow u hu).trans_resolve hb hrs hcb hs'
          · rw [List.length_cons]
            omega
        · simp
      · simp
      · intro _ _ _
        split <;> simp

/-- Under acyclic bindings whose compound parts are among those of the start, the first bound
suffices for any two of the terms of the start. -/
theorem terms_ne_endless_of_mem {ts : List Term} {s t : Term} {b c : Bindings} (log : List Step)
    (hs : s ∈ ts) (ht : t ∈ ts) (hc : c.Acyclic)
    (hvalues : c.Values fun v => v.compoundParts ⊆ b.compoundParts ++ Term.compoundPartsAll ts) :
    (terms true (b.weight + Term.compoundsAll ts + 1) s t c log).1 ≠ .endless := by
  have hlen : (b.compoundParts ++ Term.compoundPartsAll ts).length =
      b.weight + Term.compoundsAll ts := by
    rw [List.length_append, b.length_compoundParts, Term.length_compoundPartsAll]
  refine terms_ne_endless [] log hc (fun v hv => ?_) (fun v hv => ?_) hvalues (by simp) (by simp)
    (by simp) ?_
  · exact List.mem_append_right _ (Term.compoundParts_subset hs hv)
  · exact List.mem_append_right _ (Term.compoundParts_subset ht hv)
  · rw [hlen, List.length_nil]
    omega

theorem within_eq {ts : List Term} {b : Bindings} {run : Nat → Run}
    (h : (run (b.weight + Term.compoundsAll ts + 1)).1 ≠ .endless) :
    within ts b run = run (b.weight + Term.compoundsAll ts + 1) := by
  rw [within]
  split
  · next heq => simp [heq] at h
  · rfl

end Unify

namespace Unifier

open Unify

variable {u : Unifier} {b : Bindings}

/-- Under acyclic bindings the unification of two terms ends within the first bound. -/
theorem run_eq_terms (hu : u.occursCheck = true) (hb : b.Acyclic) (s t : Term) :
    u.run s t b = terms true (b.weight + Term.compoundsAll [s, t] + 1) s t b [] ∧
      (u.run s t b).1 ≠ .endless := by
  have hends : (terms true (b.weight + Term.compoundsAll [s, t] + 1) s t b []).1 ≠ .endless :=
    terms_ne_endless_of_mem [] (by simp) (by simp) hb fun x v hv c hc =>
      List.mem_append_left _ (b.values_compoundParts x v hv hc)
  have hrun : u.run s t b = terms true (b.weight + Term.compoundsAll [s, t] + 1) s t b [] := by
    rw [run, hu]
    exact within_eq hends
  exact ⟨hrun, hrun ▸ hends⟩

theorem runArgs_eq_arguments (hu : u.occursCheck = true) (hb : b.Acyclic) (ss ts : List Term) :
    u.runArgs ss ts b =
        arguments (terms true (b.weight + Term.compoundsAll (ss ++ ts) + 1)) ss ts b [] ∧
      (u.runArgs ss ts b).1 ≠ .endless := by
  have hends : (arguments (terms true (b.weight + Term.compoundsAll (ss ++ ts) + 1))
      ss ts b []).1 ≠ .endless := by
    rw [arguments]
    split
    · have hparts : ∀ a ∈ ss ++ ts,
          a.compoundParts ⊆ b.compoundParts ++ Term.compoundPartsAll (ss ++ ts) :=
        fun a ha c hc => List.mem_append_right _ (Term.compoundParts_subset ha hc)
      refine pairs_ne_endless (Term.hereditary_compoundParts _) (explained_terms true _)
        (fun s hs => hparts s (List.mem_append_left ts hs))
        (fun t ht => hparts t (List.mem_append_right ss ht)) hb
        (fun x v hv c hc => List.mem_append_left _ (b.values_compoundParts x v hv hc)) ?_ 0 []
      intro s hs t ht c log hc _ hcv
      exact terms_ne_endless_of_mem log (List.mem_append_left ts hs) (List.mem_append_right ss ht)
        hc hcv
    · simp
  have hrun : u.runArgs ss ts b =
      arguments (terms true (b.weight + Term.compoundsAll (ss ++ ts) + 1)) ss ts b [] := by
    rw [runArgs, hu]
    exact within_eq hends
  exact ⟨hrun, hrun ▸ hends⟩

end Unifier

end Clausal
