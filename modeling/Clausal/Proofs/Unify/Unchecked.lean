import Clausal.Proofs.Bindings.Chains
import Clausal.Proofs.Unify.Alike
import Clausal.Proofs.Unify.Soundness

/-!
# Unification without the occurs check

Without the occurs check a unification takes the same steps as with it, up to the first variable
that the check refuses to bind. From there on the bindings have a circle. The unification may go on
through them for a long time, but no step takes a circle away: chains of variables still end, so
every variable that is bound later was unbound before. The check therefore refuses exactly the
results that are circular.
-/

namespace Clausal

namespace Unify

/-! ## Moves through circles -/

variable {check : Bool} {p q : Problem}

theorem Move.extends_chainsEnd (h : Move check p q) (hp : p.bindings.ChainsEnd) :
    q.bindings.Extends p.bindings ∧ q.bindings.ChainsEnd := by
  cases h with
  | same | decompose | leaves => exact ⟨.refl _, hp⟩
  | bindLeft hs ht =>
      have hx := hp.get?_of_resolve_var hs
      exact ⟨Bindings.extends_insert hx _, hp.insert hx (fun _ hy => hp.get?_of_resolve_var hy) ht⟩
  | bindRight hs ht =>
      have hy := hp.get?_of_resolve_var ht
      exact ⟨Bindings.extends_insert hy _, hp.insert hy (fun x hx => (hs x hx).elim) (hs _)⟩

theorem Moves.extends_chainsEnd (h : Moves check p q) (hp : p.bindings.ChainsEnd) :
    q.bindings.Extends p.bindings ∧ q.bindings.ChainsEnd := by
  induction h with
  | refl => exact ⟨.refl _, hp⟩
  | tail _ hmove ih =>
      obtain ⟨hext, hends⟩ := hmove.extends_chainsEnd ih.2
      exact ⟨hext.trans ih.1, hends⟩

/-! ## The two runs side by side -/

/-- Whatever bindings the outcome has, there is a circle in them. -/
def Circular (o : Outcome) : Prop :=
  ∀ c, o = .unified c → c.ChainsEnd ∧ ¬ c.Acyclic

theorem Explained.circular {ps : List (Term × Term)} {b : Bindings} {o : Outcome}
    (h : Explained check ps b o) (hends : b.ChainsEnd) (hb : ¬ b.Acyclic) : Circular o := by
  rintro c rfl
  obtain ⟨hext, hends'⟩ := Moves.extends_chainsEnd (h []) hends
  exact ⟨hends', fun hc => hb (hc.of_extends hext)⟩

/-- A run with the check and one without it: they are the same, or the first one is refused and the
second one is circular. -/
inductive Parting : Run → Run → Prop
  | together (r : Run) : Parting r r
  | apart {r r' : Run} (hr : r.1 = .clash) (h : Circular r'.1) : Parting r r'

variable {b : Bindings}

theorem parting_bind (hb : b.Acyclic) {x : String} {t : Term} (hx : b.get? x = none)
    (ht : ∀ y, t = .var y → b.get? y = none) (htx : t ≠ .var x) (log : List Step) :
    Parting (bind true x t b log) (bind false x t b log) := by
  rcases hocc : b.occurs? x t with _ | _ | _
  · simp [hb.occurs?_eq] at hocc
  · simpa [bind, hocc] using Parting.together _
  · have hcircle : ¬ (b.insert x t).Acyclic := by
      intro hins
      simp [hb.occurs?_of_insert hx hins] at hocc
    have hends := hb.chainsEnd.insert hx ht htx
    simp only [bind, hocc, if_true, if_false, Bool.false_eq_true]
    refine .apart rfl fun c hc => ?_
    cases hc
    exact ⟨hends, hcircle⟩

section Pairs

variable {pair pair' : Term → Term → Bindings → List Step → Run}
  (hpair : ∀ s t c log, c.Acyclic → Parting (pair s t c log) (pair' s t c log))
  (hexp : ∀ s t c log, Explained true [(s, t)] c (pair s t c log).1)
  (hexp' : ∀ s t c log, Explained false [(s, t)] c (pair' s t c log).1)

include hpair hexp hexp'

theorem parting_pairs (hb : b.Acyclic) (k : Nat) (ss ts : List Term) (log : List Step) :
    Parting (pairs pair k ss ts b log) (pairs pair' k ss ts b log) := by
  induction ss generalizing k ts b log with
  | nil => exact .together _
  | cons s ss ih =>
      cases ts with
      | nil => exact .together _
      | cons t ts =>
          have hfirst := hpair s t b (.argument k s t :: log) hb
          have hmoves := hexp s t b (.argument k s t :: log)
          rcases hrun : pair s t b (.argument k s t :: log) with ⟨o, log₁⟩
          rcases hrun' : pair' s t b (.argument k s t :: log) with ⟨o', log₂⟩
          rw [hrun, hrun'] at hfirst
          rw [hrun] at hmoves
          cases hfirst with
          | together =>
              cases o with
              | unified c =>
                  rw [pairs_of_unified hrun, pairs_of_unified hrun']
                  exact ih (Moves.acyclic (hmoves []) hb) (k + 1) ts log₁
              | clash | endless =>
                  rw [pairs_of_stopped hrun (by simp), pairs_of_stopped hrun' (by simp)]
                  exact .together _
          | apart hrefused hcircle =>
              obtain rfl : o = .clash := hrefused
              rw [pairs_of_stopped hrun (by simp)]
              refine .apart rfl ?_
              cases o' with
              | unified c =>
                  -- the run without the check goes on, through circular bindings
                  obtain ⟨hends, hc⟩ := hcircle c rfl
                  rw [pairs_of_unified hrun']
                  exact (explained_pairs hexp' (k + 1) ss ts c log₂).circular hends hc
              | clash | endless =>
                  rw [pairs_of_stopped hrun' (by simp)]
                  exact hcircle

theorem parting_arguments (hb : b.Acyclic) (ss ts : List Term) (log : List Step) :
    Parting (arguments pair ss ts b log) (arguments pair' ss ts b log) := by
  rw [arguments, arguments]
  split
  · exact parting_pairs hpair hexp hexp' hb 0 ss ts log
  · exact .together _

end Pairs

theorem parting_terms (n : Nat) (s t : Term) (hb : b.Acyclic) (log : List Step) :
    Parting (terms true n s t b log) (terms false n s t b log) := by
  induction n generalizing s t b log with
  | zero => exact .together _
  | succ n ih =>
      rw [terms, terms]
      refine resolved_cases_both (motive := Parting) ?_ ?_ ?_ ?_ ?_ ?_
      · exact fun _ _ _ => .together _
      · intro x hs ht
        exact parting_bind hb (hb.get?_of_resolve_var hs)
          (fun _ hy => hb.get?_of_resolve_var hy) ht _
      · intro y hs ht
        exact parting_bind hb (hb.get?_of_resolve_var ht) (fun x hx => (hs x hx).elim) (hs y) _
      · intro f ss ts _ _
        exact parting_arguments (fun s t c log hc => ih s t hc log) (explained_terms true n)
          (explained_terms false n) hb ss ts _
      · exact fun _ _ _ _ _ _ _ => .together _
      · exact fun _ _ _ => .together _

/-! ## Whole runs -/

theorem Parting.circular {r r' : Run} (h : Parting r r') (hr : ∀ c, r.1 ≠ .unified c) :
    Circular r'.1 := by
  cases h with
  | together => exact fun c hc => (hr c hc).elim
  | apart _ hcircle => exact hcircle

theorem Parting.clash_of_endless {r r' : Run} (h : Parting r r') (hr : r.1 ≠ .endless)
    (hr' : r'.1 = .endless) : r.1 = .clash := by
  cases h with
  | together => exact (hr hr').elim
  | apart hrefused => exact hrefused

theorem within_of_endless {ts : List Term} {run : Nat → Run}
    (h : (run (b.weight + Term.compoundsAll ts + 1)).1 = .endless) :
    within ts b run = run ((b.weight + Term.compoundsAll ts) * (b.weight + Term.compoundsAll ts) *
      (openCount ts b + 1) + 1) := by
  rw [within]
  split
  · rfl
  · next hne => exact (hne _ (Prod.ext h rfl)).elim

/-- Both runs start with the bound that suffices for acyclic bindings. Only the one without the
check can need the larger bound, and only after it has closed a circle. -/
theorem parting_within {ts : List Term} {run run' : Nat → Run} (h : ∀ n, Parting (run n) (run' n))
    (hends : (run (b.weight + Term.compoundsAll ts + 1)).1 ≠ .endless)
    (hclash : ∀ n m, (run n).1 = .clash → ∀ c, (run m).1 ≠ .unified c) :
    Parting (within ts b run) (within ts b run') := by
  have hfirst := h (b.weight + Term.compoundsAll ts + 1)
  by_cases hends' : (run' (b.weight + Term.compoundsAll ts + 1)).1 = .endless
  · have hrefused := hfirst.clash_of_endless hends hends'
    rw [within_eq hends, within_of_endless hends']
    exact .apart hrefused ((h _).circular (hclash _ _ hrefused))
  · rw [within_eq hends, within_eq hends']
    exact hfirst

theorem conclude_iff_of_parting {r r' : Run} {c : Bindings} (h : Parting r r')
    (hr : conclude r = .ok (some c) → c.Acyclic) :
    conclude r = .ok (some c) ↔ conclude r' = .ok (some c) ∧ c.Acyclic := by
  constructor
  · intro hc
    refine ⟨?_, hr hc⟩
    cases h with
    | together => exact hc
    | apart hrefused => simp [outcome_of_conclude hc] at hrefused
  · rintro ⟨hc, hacyclic⟩
    cases h with
    | together => exact hc
    | apart _ hcircle => exact ((hcircle c (outcome_of_conclude hc)).2 hacyclic).elim

/-- No bound turns a refusal into a success. -/
theorem AlikeRuns.not_unified {R : String → Prop} {r r' : Run} (h : AlikeRuns R r r')
    (hr : r.1 = .clash) (c : Bindings) : r'.1 ≠ .unified c := by
  cases h with
  | unified | left => simp at hr
  | clash | right => simp

end Unify

namespace Unifier

open Unify

variable {u v : Unifier} (hu : u.occursCheck = true) (hv : v.occursCheck = false) {b : Bindings}
  (hb : b.Acyclic)

include hu hv hb

theorem parting_run (s t : Term) : Parting (u.run s t b) (v.run s t b) := by
  obtain ⟨hrun, hends⟩ := run_eq_terms hu hb s t
  rw [hrun] at hends
  rw [run, run, hu, hv]
  refine parting_within (fun n => parting_terms n s t hb []) hends fun n m hn => ?_
  exact (alikeRuns_terms _ n m s t b b [] (fun _ _ => trivial) (fun _ _ => trivial)
    (.refl hb)).not_unified hn

theorem parting_runArgs (ss ts : List Term) : Parting (u.runArgs ss ts b) (v.runArgs ss ts b) := by
  obtain ⟨hrun, hends⟩ := runArgs_eq_arguments hu hb ss ts
  rw [hrun] at hends
  rw [runArgs, runArgs, hu, hv]
  refine parting_within (fun n => ?_) hends fun n m hn => ?_
  · exact parting_arguments (fun s t c log hc => parting_terms n s t hc log)
      (explained_terms true n) (explained_terms false n) hb ss ts []
  · exact (alikeRuns_arguments (alikeRuns_terms _ n m) (fun _ _ _ _ => trivial)
      (fun _ _ _ _ => trivial) (.refl hb) []).not_unified hn

/-- The occurs check refuses exactly the circular results: a unification with the check has
the result of the one without it, where that one has a result that is acyclic, and has no
result otherwise. -/
theorem unify_iff_unchecked (c : Bindings) :
    (∀ s t : Term, u.unify s t b = .ok (some c) ↔ v.unify s t b = .ok (some c) ∧ c.Acyclic) ∧
    ∀ ss ts : List Term,
      u.unifyArgs ss ts b = .ok (some c) ↔ v.unifyArgs ss ts b = .ok (some c) ∧ c.Acyclic := by
  constructor
  · intro s t
    refine conclude_iff_of_parting (parting_run hu hv hb s t) fun hc => ?_
    exact (moves_of_unify hu hb hc).acyclic hb
  · intro ss ts
    refine conclude_iff_of_parting (parting_runArgs hu hv hb ss ts) fun hc => ?_
    exact (moves_of_unifyArgs hu hb hc).acyclic hb

omit hu hv hb in
/-- One unification through bindings with a compound term in which both ways agree, and one in which
a circle is closed by the first of two arguments and the second one is unified through it. -/
theorem unify_iff_unchecked_through_compound :
    let b := (∅ : Bindings).insert "X" (.compound "g" [.var "Y"])
    let c := (b.insert "Y" (.var "W")).insert "Z" (.compound "h" [.var "Y"])
    let d := (b.insert "Y" (.compound "g" [.var "Y"])).insert "Z" (.compound "g" [.var "Y"])
    ((⟨true⟩ : Unifier).unifyArgs [.var "X", .var "Z"]
        [.compound "g" [.var "W"], .compound "h" [.var "Y"]] b = .ok (some c) ∧ c.Acyclic) ∧
      (⟨false⟩ : Unifier).unify (.compound "f" [.var "Y", .var "Z"])
        (.compound "f" [.var "X", .var "Y"]) b = .ok (some d) ∧ ¬ d.Acyclic := by
  intro b c d
  have hb : b.Acyclic := Bindings.acyclic_empty.insert_of_occurs? (Bindings.get?_empty "X") rfl
  have hchecked : (⟨true⟩ : Unifier).unifyArgs [.var "X", .var "Z"]
      [.compound "g" [.var "W"], .compound "h" [.var "Y"]] b = .ok (some c) := rfl
  have hcircle : (⟨false⟩ : Unifier).unify (.compound "f" [.var "Y", .var "Z"])
      (.compound "f" [.var "X", .var "Y"]) b = .ok (some d) := rfl
  have hiff := unify_iff_unchecked (u := ⟨true⟩) (v := ⟨false⟩) rfl rfl hb
  refine ⟨⟨hchecked, ((hiff c).2 _ _).mp hchecked |>.2⟩, hcircle, fun hd => ?_⟩
  have hsome := ((hiff d).1 _ _).mpr ⟨hcircle, hd⟩
  have hnone : (⟨true⟩ : Unifier).unify (.compound "f" [.var "Y", .var "Z"])
      (.compound "f" [.var "X", .var "Y"]) b = .ok none := rfl
  simp [hnone] at hsome

end Unifier

end Clausal
