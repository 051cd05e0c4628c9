import Clausal.Proofs.Bindings.Rerooted
import Clausal.Proofs.Term.Closeness
import Clausal.Proofs.Unify.Soundness

/-!
# Unification does not depend on the order of the terms

The unification of two terms and the one of the same terms in the other order take their steps
together. When two unbound variables meet, one run binds the first to the second and the other run
the second to the first, so from there on the bindings are represented by different variables; all
other steps are the same up to that. Floating-point leaves are close in both orders. As closeness is
not transitive, the argument goes through the steps and does not compare most general unifiers.
-/

namespace Clausal

theorem Term.compoundsAll_append (ss ts : List Term) :
    compoundsAll (ss ++ ts) = compoundsAll ss + compoundsAll ts := by
  induction ss with
  | nil => simp [compoundsAll]
  | cons s ss ih => rw [List.cons_append, compoundsAll, compoundsAll, ih, Nat.add_assoc]

namespace Unify

/-- Records that both have text or both lack it. -/
def SameText (log log' : List Step) : Prop :=
  log'.all Step.hasText = log.all Step.hasText

theorem SameText.cons {log log' : List Step} (h : SameText log log') {step step' : Step}
    (hstep : step'.hasText = step.hasText) : SameText (step :: log) (step' :: log') := by
  rw [SameText, List.all_cons, List.all_cons, hstep, h]

/-- Runs that end in the same way, with rerooted bindings where they succeed. -/
inductive Mirrored : Run → Run → Prop
  | unified {ρ : Equiv.Perm String} {c c' : Bindings} {log log' : List Step} (h : c.Rerooted ρ c')
      (hlog : SameText log log') : Mirrored (.unified c, log) (.unified c', log')
  | clash {log log' : List Step} (hlog : SameText log log') : Mirrored (.clash, log) (.clash, log')
  | endless {log log' : List Step} (hlog : SameText log log') : Mirrored (.endless, log)
      (.endless, log')

/-- The second way to unify a pair takes the terms in the other order. -/
def MirroredPair (pair pair' : Term → Term → Bindings → List Step → Run) : Prop :=
  ∀ s t ρ c c' log log', c.Rerooted ρ c' → SameText log log' →
    Mirrored (pair s t c log) (pair' t s c' log')

variable {ρ : Equiv.Perm String} {c c' : Bindings} {log log' : List Step}
  {pair pair' : Term → Term → Bindings → List Step → Run}

theorem mirrored_bind (h : c.Rerooted ρ c') {x : String} {t : Term} (hx : c.get? x = none)
    (ht : ∀ y, t ≠ .var y) (hlog : SameText log log') :
    Mirrored (bind true x t c log) (bind true (ρ x) t c' log') := by
  rw [bind, bind, h.occurs?_eq]
  rcases hocc : c.occurs? x t with _ | _ | _
  · exact .endless hlog
  · exact .unified (h.insert hx ht hocc) (hlog.cons rfl)
  · exact .clash (hlog.cons rfl)

theorem mirrored_bind_var (h : c.Rerooted ρ c') {x y : String} (hx : c.get? x = none)
    (hy : c.get? y = none) (hxy : x ≠ y) (hlog : SameText log log') :
    Mirrored (bind true x (.var y) c log) (bind true (ρ y) (.var (ρ x)) c' log') := by
  have hx' := h.get?_eq_none hx
  rw [bind, bind, h.acyclic.occurs?_var hy hxy,
    h.acyclic'.occurs?_var hx' (ρ.injective.ne hxy.symm)]
  exact .unified (h.insert_var hx hy hxy) (hlog.cons rfl)

theorem mirrored_pairs (hpair : MirroredPair pair pair') (k : Nat) (ss ts : List Term)
    (h : c.Rerooted ρ c') (hlog : SameText log log') :
    Mirrored (pairs pair k ss ts c log) (pairs pair' k ts ss c' log') := by
  induction ss generalizing k ts ρ c c' log log' with
  | nil => cases ts <;> exact .unified h hlog
  | cons s ss ih =>
      cases ts with
      | nil => exact .unified h hlog
      | cons t ts =>
          have htext : (Step.argument k t s).hasText = (Step.argument k s t).hasText :=
            Bool.and_comm _ _
          have hfirst := hpair s t ρ c c' _ _ h (hlog.cons htext)
          rw [pairs, pairs]
          generalize pair s t c _ = r, pair' t s c' _ = r' at hfirst
          cases hfirst with
          | unified hnext hlog' => exact ih (k + 1) ts hnext hlog'
          | clash hlog' => exact .clash hlog'
          | endless hlog' => exact .endless hlog'

theorem mirrored_arguments (hpair : MirroredPair pair pair') (ss ts : List Term)
    (h : c.Rerooted ρ c') (hlog : SameText log log') :
    Mirrored (arguments pair ss ts c log) (arguments pair' ts ss c' log') := by
  rw [arguments, arguments]
  by_cases hlen : ss.length = ts.length
  · rw [if_pos hlen, if_pos hlen.symm]
    exact mirrored_pairs hpair 0 ss ts h hlog
  · rw [if_neg hlen, if_neg (Ne.symm hlen)]
    exact .clash (hlog.cons rfl)

theorem mirrored_nonvar (hpair : MirroredPair pair pair') (h : c.Rerooted ρ c') {s t : Term}
    (hs : ∀ x, s ≠ .var x) (ht : ∀ x, t ≠ .var x) (hlog : SameText log log') :
    Mirrored (resolved true pair s t c log) (resolved true pair' t s c' log') := by
  by_cases hleaf : s.isLeaf = true ∨ t.isLeaf = true
  · rw [resolved_leaves hs ht hleaf, resolved_leaves ht hs hleaf.symm, Term.close_comm t s]
    split
    · exact .unified h (hlog.cons rfl)
    · exact .clash (hlog.cons (Bool.and_comm _ _))
  · obtain ⟨hsl, htl⟩ := not_or.mp hleaf
    obtain ⟨f, ss, rfl⟩ := (Term.eq_compound_or_isLeaf hs).resolve_right hsl
    obtain ⟨g, ts, rfl⟩ := (Term.eq_compound_or_isLeaf ht).resolve_right htl
    rw [resolved, resolved, BEq.comm (a := g)]
    split
    · exact mirrored_arguments hpair ss ts h hlog
    · exact .clash (hlog.cons rfl)

theorem mirrored_resolved (hpair : MirroredPair pair pair') (h : c.Rerooted ρ c') {s t : Term}
    (hsfree : ∀ x, s = .var x → c.get? x = none) (htfree : ∀ x, t = .var x → c.get? x = none)
    (hlog : SameText log log') :
    Mirrored (resolved true pair s t c log)
      (resolved true pair' (t.atRoot ρ) (s.atRoot ρ) c' log') := by
  rcases s.var_or_nonvar with ⟨x, rfl⟩ | hs
  · rcases t.var_or_nonvar with ⟨y, rfl⟩ | ht
    · by_cases hxy : x = y
      · subst hxy
        simpa [resolved, Term.atRoot] using Mirrored.unified h (hlog.cons rfl)
      · -- the only step in which the runs bind different variables
        have hxy' : ρ y ≠ ρ x := ρ.injective.ne (Ne.symm hxy)
        simpa [resolved, Term.atRoot, hxy, hxy'] using
          mirrored_bind_var h (hsfree x rfl) (htfree y rfl) hxy hlog
    · rw [Term.atRoot_of_nonvar ht, Term.atRoot, resolved_var_left ht, resolved_var_right ht]
      exact mirrored_bind h (hsfree x rfl) ht hlog
  · rcases t.var_or_nonvar with ⟨y, rfl⟩ | ht
    · rw [Term.atRoot_of_nonvar hs, Term.atRoot, resolved_var_left hs, resolved_var_right hs]
      exact mirrored_bind h (htfree y rfl) hs hlog
    · rw [Term.atRoot_of_nonvar hs, Term.atRoot_of_nonvar ht]
      exact mirrored_nonvar hpair h hs ht hlog

theorem mirrored_terms (n : Nat) : MirroredPair (terms true n) (terms true n) := by
  induction n with
  | zero => exact fun _ _ _ _ _ _ _ _ hlog => .endless hlog
  | succ n ih =>
      intro s t ρ c c' log log' h hlog
      rw [terms, terms, h.resolve_eq, h.resolve_eq]
      refine mirrored_resolved ih h (fun _ hx => h.acyclic.get?_of_resolve_var hx)
        (fun _ hy => h.acyclic.get?_of_resolve_var hy) (hlog.cons ?_)
      rw [Step.hasText, Step.hasText, Term.hasText_atRoot, Term.hasText_atRoot, Bool.and_comm]

/-! ## What the runs have to say -/

/-- Results that succeed together, with values that a permutation of the variables makes identical,
and fail for the same reason. -/
structure EqualUpToRenaming (o o' : Except Fault (Option Bindings)) : Prop where
  succeeds : (∃ c, o = .ok (some c)) ↔ ∃ c', o' = .ok (some c')
  renamed : ∀ c c', o = .ok (some c) → o' = .ok (some c') → ∃ ρ : Equiv.Perm String, ∀ x, ∃ v,
    c.substitute? (.var x) = some v ∧ c'.substitute? (.var x) = some (v.mapVars ρ)
  faults : ∀ e, o = .error e ↔ o' = .error e

theorem Mirrored.equalUpToRenaming {r r' : Run} (h : Mirrored r r') :
    EqualUpToRenaming (conclude r) (conclude r') := by
  have htext : r'.2.all Step.hasText = r.2.all Step.hasText := by cases h <;> assumption
  rw [conclude, conclude, htext]
  cases hall : r.2.all Step.hasText with
  | false => exact ⟨by simp, by simp, by simp⟩
  | true =>
      cases h with
      | clash | endless => exact ⟨by simp, by simp, by simp⟩
      | @unified ρ d d' _ _ h _ =>
          refine ⟨by simp, fun c c' hc hc' => ?_, by simp⟩
          obtain rfl : d = c := by simpa using hc
          obtain rfl : d' = c' := by simpa using hc'
          refine ⟨ρ, fun x => ⟨d.image x, h.acyclic.substitute?_eq (.var x), ?_⟩⟩
          rw [← h.image_eq x]
          exact h.acyclic'.substitute?_eq (.var x)

end Unify

namespace Unifier

open Unify

variable {u : Unifier} (hu : u.occursCheck = true) {b : Bindings} (hb : b.Acyclic)

include hu hb

theorem mirrored_run (s t : Term) : Mirrored (u.run s t b) (u.run t s b) := by
  have hsize : Term.compoundsAll [t, s] = Term.compoundsAll [s, t] := by
    simp only [Term.compoundsAll]
    omega
  rw [(run_eq_terms hu hb s t).1, (run_eq_terms hu hb t s).1, hsize]
  exact mirrored_terms _ s t 1 b b [] [] (.refl hb) rfl

theorem mirrored_runArgs (ss ts : List Term) :
    Mirrored (u.runArgs ss ts b) (u.runArgs ts ss b) := by
  have hsize : Term.compoundsAll (ts ++ ss) = Term.compoundsAll (ss ++ ts) := by
    rw [Term.compoundsAll_append, Term.compoundsAll_append, Nat.add_comm]
  rw [(runArgs_eq_arguments hu hb ss ts).1, (runArgs_eq_arguments hu hb ts ss).1, hsize]
  exact mirrored_arguments (mirrored_terms _) ss ts (.refl hb) rfl

/-- Unification with the occurs check, of two terms and of two lists of arguments, has the same
result in both orders, up to the names of the variables that stay unbound. -/
theorem unify_comm :
    (∀ s t : Term, EqualUpToRenaming (u.unify s t b) (u.unify t s b)) ∧
      ∀ ss ts : List Term, EqualUpToRenaming (u.unifyArgs ss ts b) (u.unifyArgs ts ss b) :=
  ⟨fun s t => (mirrored_run hu hb s t).equalUpToRenaming,
    fun ss ts => (mirrored_runArgs hu hb ss ts).equalUpToRenaming⟩

omit hu hb in
/-- Three variables in one class, which one order represents by `Y` and the other one by `Z`, and
two floating-point leaves that are close and not equal. -/
theorem unify_comm_crossed :
    let b := (∅ : Bindings).insert "W" (.compound "g" [.var "Z"])
    let s := Term.compound "f" [.var "X", .var "W", .float 1e-17]
    let t := Term.compound "f" [.var "Y", .compound "g" [.var "X"], .float 2e-17]
    let c := (b.insert "X" (.var "Y")).insert "Z" (.var "Y")
    let c' := (b.insert "Y" (.var "X")).insert "X" (.var "Z")
    ({} : Unifier).unify s t b = .ok (some c) ∧ ({} : Unifier).unify t s b = .ok (some c') ∧
      ∃ ρ : Equiv.Perm String, ρ "Y" = "Z" ∧ ∀ x, ∃ v,
        c.substitute? (.var x) = some v ∧ c'.substitute? (.var x) = some (v.mapVars ρ) := by
  intro b s t c c'
  have hb : b.Acyclic := Bindings.acyclic_empty.insert_of_occurs? (Bindings.get?_empty "W") rfl
  have hst : ({} : Unifier).unify s t b = .ok (some c) := rfl
  have hts : ({} : Unifier).unify t s b = .ok (some c') := rfl
  obtain ⟨ρ, hρ⟩ := ((unify_comm (u := {}) rfl hb).1 s t).renamed c c' hst hts
  refine ⟨hst, hts, ρ, ?_, hρ⟩
  obtain ⟨v, hv, hv'⟩ := hρ "X"
  have hY : c.substitute? (.var "X") = some (.var "Y") := rfl
  have hZ : c'.substitute? (.var "X") = some (.var "Z") := rfl
  obtain rfl : v = .var "Y" := by simpa [hY] using hv.symm
  simpa [hZ, Term.mapVars] using hv'.symm

end Unifier

end Clausal
