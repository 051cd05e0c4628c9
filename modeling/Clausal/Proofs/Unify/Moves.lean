import Clausal.Proofs.Bindings.Extension
import Clausal.Proofs.Term.Leaves
import Clausal.Unify.Basic

/-!
# Unification as a transition system

A run of the unification recurses into arguments from left to right. Flattened, it works on a
list of pairs: it takes the first pair, and puts the pairs of its arguments in its place. `Move`
says once what can happen to the first pair and `Clash` says once why a pair is refused; each
outcome of the recursive functions is explained by moves. All invariants of unification are
proved for one move.
-/

namespace Clausal.Unify

/-- Pairs that are still to be unified, from left to right, under bindings. -/
structure Problem where
  pairs : List (Term × Term)
  bindings : Bindings

/-- What can happen to the first pair of a problem. Without the occurs check a variable is bound
unconditionally. -/
inductive Move (check : Bool) : Problem → Problem → Prop
  | same {s t : Term} {ps : List (Term × Term)} {b : Bindings} {x : String}
      (hs : b.resolve s = .var x) (ht : b.resolve t = .var x) :
      Move check ⟨(s, t) :: ps, b⟩ ⟨ps, b⟩
  | bindLeft {s t : Term} {ps : List (Term × Term)} {b : Bindings} {x : String}
      (hs : b.resolve s = .var x) (ht : b.resolve t ≠ .var x)
      (hocc : check = true → b.occurs? x (b.resolve t) = some false) :
      Move check ⟨(s, t) :: ps, b⟩ ⟨ps, b.insert x (b.resolve t)⟩
  | bindRight {s t : Term} {ps : List (Term × Term)} {b : Bindings} {y : String}
      (hs : ∀ x, b.resolve s ≠ .var x) (ht : b.resolve t = .var y)
      (hocc : check = true → b.occurs? y (b.resolve s) = some false) :
      Move check ⟨(s, t) :: ps, b⟩ ⟨ps, b.insert y (b.resolve s)⟩
  | decompose {s t : Term} {ps : List (Term × Term)} {b : Bindings} {f : String}
      {ss ts : List Term} (hs : b.resolve s = .compound f ss) (ht : b.resolve t = .compound f ts)
      (hlen : ss.length = ts.length) :
      Move check ⟨(s, t) :: ps, b⟩ ⟨ss.zip ts ++ ps, b⟩
  | leaves {s t : Term} {ps : List (Term × Term)} {b : Bindings}
      (hs : (b.resolve s).isLeaf = true) (hclose : (b.resolve s).close (b.resolve t) = true) :
      Move check ⟨(s, t) :: ps, b⟩ ⟨ps, b⟩

/-- Why a pair is refused under bindings. -/
inductive Clash (check : Bool) (b : Bindings) (s t : Term) : Prop
  | occursLeft {x : String} (hcheck : check = true) (hs : b.resolve s = .var x)
      (ht : b.resolve t ≠ .var x) (hocc : b.occurs? x (b.resolve t) = some true)
  | occursRight {y : String} (hcheck : check = true) (hs : ∀ x, b.resolve s ≠ .var x)
      (ht : b.resolve t = .var y) (hocc : b.occurs? y (b.resolve s) = some true)
  | functors {f g : String} {ss ts : List Term} (hs : b.resolve s = .compound f ss)
      (ht : b.resolve t = .compound g ts) (hne : f ≠ g)
  | arities {f : String} {ss ts : List Term} (hs : b.resolve s = .compound f ss)
      (ht : b.resolve t = .compound f ts) (hlen : ss.length ≠ ts.length)
  | leaves (hs : ∀ x, b.resolve s ≠ .var x) (ht : ∀ x, b.resolve t ≠ .var x)
      (hleaf : (b.resolve s).isLeaf = true ∨ (b.resolve t).isLeaf = true)
      (hclose : (b.resolve s).close (b.resolve t) = false)

abbrev Moves (check : Bool) : Problem → Problem → Prop :=
  Relation.ReflTransGen (Move check)

/-- An outcome for pairs is explained by moves, whatever pairs come after them. Running out of the
bound on the nesting needs no explanation. -/
def Explained (check : Bool) (ps : List (Term × Term)) (b : Bindings) : Outcome → Prop
  | .unified c => ∀ rest, Moves check ⟨ps ++ rest, b⟩ ⟨rest, c⟩
  | .clash => ∀ rest, ∃ s t qs c, Moves check ⟨ps ++ rest, b⟩ ⟨(s, t) :: qs, c⟩ ∧ Clash check c s t
  | .endless => True

namespace Explained

variable {check : Bool} {ps qs : List (Term × Term)} {b c : Bindings} {o : Outcome}

theorem after (h : ∀ rest, Moves check ⟨ps ++ rest, b⟩ ⟨qs ++ rest, c⟩)
    (ho : Explained check qs c o) : Explained check ps b o := by
  cases o with
  | unified d => exact fun rest => (h rest).trans (ho rest)
  | clash =>
      intro rest
      obtain ⟨s, t, rs, d, hmoves, hclash⟩ := ho rest
      exact ⟨s, t, rs, d, (h rest).trans hmoves, hclash⟩
  | endless => trivial

theorem clash {s t : Term} (h : Clash check b s t) : Explained check [(s, t)] b .clash :=
  fun rest => ⟨s, t, rest, b, .refl, h⟩

theorem unified {s t : Term} (h : ∀ rest, Move check ⟨(s, t) :: rest, b⟩ ⟨rest, c⟩) :
    Explained check [(s, t)] b (.unified c) :=
  fun rest => .single (h rest)

end Explained

section Resolved

variable {check : Bool} {pair : Term → Term → Bindings → List Step → Run} {s t : Term}
  {b : Bindings} {log : List Step}

theorem resolved_var_left (ht : ∀ y, t ≠ .var y) (x : String) :
    resolved check pair (.var x) t b log = bind check x t b log := by
  cases t with
  | var y => exact (ht y rfl).elim
  | _ => rfl

theorem resolved_var_right (hs : ∀ x, s ≠ .var x) (y : String) :
    resolved check pair s (.var y) b log = bind check y s b log := by
  cases s with
  | var x => exact (hs x rfl).elim
  | _ => rfl

theorem resolved_leaves (hs : ∀ x, s ≠ .var x) (ht : ∀ x, t ≠ .var x)
    (hleaf : s.isLeaf = true ∨ t.isLeaf = true) :
    resolved check pair s t b log =
      if s.close t then (.unified b, .identical :: log) else (.clash, .different s t :: log) := by
  cases s with
  | var x => exact (hs x rfl).elim
  | compound f ss =>
      cases t with
      | var y => exact (ht y rfl).elim
      | compound g ts => simp [Term.isLeaf] at hleaf
      | _ => rfl
  | _ =>
      cases t with
      | var y => exact (ht y rfl).elim
      | _ => rfl

end Resolved

/-- The cases of unifying two resolved terms in two runs, which may differ in all but the terms. -/
theorem resolved_cases_both {check check' : Bool}
    {pair pair' : Term → Term → Bindings → List Step → Run} {s t : Term} {b b' : Bindings}
    {log log' : List Step} {motive : Run → Run → Prop}
    (same : ∀ x, s = .var x → t = .var x →
      motive (.unified b, .sameVariable :: log) (.unified b', .sameVariable :: log'))
    (left : ∀ x, s = .var x → t ≠ .var x → motive (bind check x t b log) (bind check' x t b' log'))
    (right : ∀ y, (∀ x, s ≠ .var x) → t = .var y →
      motive (bind check y s b log) (bind check' y s b' log'))
    (compounds : ∀ f ss ts, s = .compound f ss → t = .compound f ts →
      motive (arguments pair ss ts b log) (arguments pair' ss ts b' log'))
    (functors : ∀ f g ss ts, s = .compound f ss → t = .compound g ts → f ≠ g →
      motive (.clash, .functors f g :: log) (.clash, .functors f g :: log'))
    (leaves : (∀ x, s ≠ .var x) → (∀ x, t ≠ .var x) → s.isLeaf = true ∨ t.isLeaf = true →
      motive
        (if s.close t then (.unified b, .identical :: log) else (.clash, .different s t :: log))
        (if s.close t then (.unified b', .identical :: log')
      else (.clash, .different s t :: log'))) :
    motive (resolved check pair s t b log) (resolved check' pair' s t b' log') := by
  rcases s.var_or_nonvar with ⟨x, rfl⟩ | hs
  · rcases t.var_or_nonvar with ⟨y, rfl⟩ | ht
    · by_cases hxy : x = y
      · subst hxy
        simpa [resolved] using same x rfl rfl
      · have hne : Term.var y ≠ .var x := by simpa using Ne.symm hxy
        simpa [resolved, hxy] using left x rfl hne
    · rw [resolved_var_left ht, resolved_var_left ht]
      exact left x rfl (ht x)
  · rcases t.var_or_nonvar with ⟨y, rfl⟩ | ht
    · rw [resolved_var_right hs, resolved_var_right hs]
      exact right y hs rfl
    · by_cases hleaf : s.isLeaf = true ∨ t.isLeaf = true
      · rw [resolved_leaves hs ht hleaf, resolved_leaves hs ht hleaf]
        exact leaves hs ht hleaf
      · obtain ⟨hsl, htl⟩ := not_or.mp hleaf
        obtain ⟨f, ss, rfl⟩ := (Term.eq_compound_or_isLeaf hs).resolve_right hsl
        obtain ⟨g, ts, rfl⟩ := (Term.eq_compound_or_isLeaf ht).resolve_right htl
        by_cases hfg : f = g
        · subst hfg
          simpa [resolved] using compounds f ss ts rfl rfl
        · simpa [resolved, hfg] using functors f g ss ts rfl rfl hfg

/-- The cases of unifying two resolved terms. -/
theorem resolved_cases {check : Bool} {pair : Term → Term → Bindings → List Step → Run}
    {s t : Term} {b : Bindings} {log : List Step} {motive : Run → Prop}
    (same : ∀ x, s = .var x → t = .var x → motive (.unified b, .sameVariable :: log))
    (left : ∀ x, s = .var x → t ≠ .var x → motive (bind check x t b log))
    (right : ∀ y, (∀ x, s ≠ .var x) → t = .var y → motive (bind check y s b log))
    (compounds : ∀ f ss ts, s = .compound f ss → t = .compound f ts →
      motive (arguments pair ss ts b log))
    (functors : ∀ f g ss ts, s = .compound f ss → t = .compound g ts → f ≠ g →
      motive (.clash, .functors f g :: log))
    (leaves : (∀ x, s ≠ .var x) → (∀ x, t ≠ .var x) → s.isLeaf = true ∨ t.isLeaf = true →
      motive (if s.close t then (.unified b, .identical :: log)
        else (.clash, .different s t :: log))) :
    motive (resolved check pair s t b log) :=
  @resolved_cases_both check check pair pair s t b b log log (fun r _ => motive r)
    same left right compounds functors leaves

theorem explained_bind {check : Bool} {x : String} {u s t : Term} {b : Bindings} {log : List Step}
    (hmove : (check = true → b.occurs? x u = some false) →
      ∀ rest, Move check ⟨(s, t) :: rest, b⟩ ⟨rest, b.insert x u⟩)
    (hclash : check = true → b.occurs? x u = some true → Clash check b s t) :
    Explained check [(s, t)] b (bind check x u b log).1 := by
  cases check with
  | false => exact .unified (hmove (by simp))
  | true =>
      cases hocc : b.occurs? x u with
      | none => simp [bind, hocc, Explained]
      | some found =>
          cases found with
          | true => simpa [bind, hocc] using Explained.clash (hclash rfl hocc)
          | false => simpa [bind, hocc] using Explained.unified (hmove fun _ => hocc)

section Pairs

variable {pair : Term → Term → Bindings → List Step → Run} {k : Nat} {s t : Term}
  {ss ts : List Term} {b c : Bindings} {log log' : List Step} {o : Outcome}

theorem pairs_of_unified (h : pair s t b (.argument k s t :: log) = (.unified c, log')) :
    pairs pair k (s :: ss) (t :: ts) b log = pairs pair (k + 1) ss ts c log' := by
  simp only [pairs, h]

theorem pairs_of_stopped (h : pair s t b (.argument k s t :: log) = (o, log'))
    (ho : ∀ c, o ≠ .unified c) : pairs pair k (s :: ss) (t :: ts) b log = (o, log') := by
  cases o with
  | unified c => exact (ho c rfl).elim
  | _ => simp only [pairs, h]

end Pairs

theorem explained_pairs {check : Bool} {pair : Term → Term → Bindings → List Step → Run}
    (hpair : ∀ s t b log, Explained check [(s, t)] b (pair s t b log).1)
    (k : Nat) (ss ts : List Term) (b : Bindings) (log : List Step) :
    Explained check (ss.zip ts) b (pairs pair k ss ts b log).1 := by
  induction ss generalizing k ts b log with
  | nil => exact fun rest => .refl
  | cons s ss ih =>
      cases ts with
      | nil => exact fun rest => .refl
      | cons t ts =>
          have hfirst := hpair s t b (.argument k s t :: log)
          rcases hrun : pair s t b (.argument k s t :: log) with ⟨o, log'⟩
          rw [hrun] at hfirst
          cases o with
          | unified c =>
              rw [pairs_of_unified hrun]
              exact .after (fun rest => hfirst (ss.zip ts ++ rest)) (ih (k + 1) ts c log')
          | clash =>
              rw [pairs_of_stopped hrun (by simp)]
              exact fun rest => hfirst (ss.zip ts ++ rest)
          | endless =>
              rw [pairs_of_stopped hrun (by simp)]
              trivial

/-- Every outcome of the recursive unification is reached by moves. -/
theorem explained_terms (check : Bool) (n : Nat) (s t : Term) (b : Bindings) (log : List Step) :
    Explained check [(s, t)] b (terms check n s t b log).1 := by
  induction n generalizing s t b log with
  | zero => trivial
  | succ n ih =>
      rw [terms]
      refine resolved_cases (motive := fun r => Explained check [(s, t)] b r.1) ?_ ?_ ?_ ?_ ?_ ?_
      · intro x hs ht
        exact .unified fun rest => .same hs ht
      · intro x hs ht
        exact explained_bind (fun hocc rest => .bindLeft hs ht hocc)
          fun hcheck hocc => .occursLeft hcheck hs ht hocc
      · intro y hs ht
        exact explained_bind (fun hocc rest => .bindRight hs ht hocc)
          fun hcheck hocc => .occursRight hcheck hs ht hocc
      · intro f ss ts hs ht
        rw [arguments]
        split
        · next hlen =>
          refine .after (fun rest => ?_) (explained_pairs ih 0 ss ts b _)
          exact .single (.decompose hs ht hlen)
        · next hlen => exact .clash (.arities hs ht hlen)
      · intro f g ss ts hs ht hne
        exact .clash (.functors hs ht hne)
      · intro hs ht hleaf
        split
        · next hclose =>
          refine .unified fun rest => .leaves ?_ hclose
          rw [← Term.isLeaf_eq_of_close hclose, or_self] at hleaf
          exact hleaf
        · next hclose => exact .clash (.leaves hs ht hleaf (by simpa using hclose))

theorem explained_arguments {check : Bool} {n : Nat} {ss ts : List Term} {b : Bindings}
    {log : List Step} (hlen : ss.length = ts.length) :
    Explained check (ss.zip ts) b (arguments (terms check n) ss ts b log).1 := by
  rw [arguments, if_pos hlen]
  exact explained_pairs (explained_terms check n) 0 ss ts b log

end Clausal.Unify
