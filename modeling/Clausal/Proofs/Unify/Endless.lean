import Clausal.Proofs.Bindings.Substitution
import Clausal.Proofs.Unify.Unchecked
import Mathlib.Data.List.ProdSigma

/-!
# Unification without an end

A unification that runs out of its last bound runs out of every bound. A nested pair that comes back
to the same two terms under the same bindings comes back to them again and again. Between two bound
variables a path that does not come back meets every pair of compound parts at most once, and each
bound variable leaves one variable less that can be bound.
-/

namespace Clausal

namespace Unify

open Relation

/-! ## Larger bounds -/

/-- The second run has the outcome of the first one, if that one ends. -/
def Confirms (r r' : Run) : Prop :=
  r.1 ≠ .endless → r'.1 = r.1

section Confirms

variable {pair pair' : Term → Term → Bindings → List Step → Run}
  (hpair : ∀ s t b log log', Confirms (pair s t b log) (pair' s t b log'))

include hpair

theorem confirms_pairs (k k' : Nat) (ss ts : List Term) (b : Bindings) (log log' : List Step) :
    Confirms (pairs pair k ss ts b log) (pairs pair' k' ss ts b log') := by
  induction ss generalizing k k' ts b log log' with
  | nil => exact fun _ => rfl
  | cons s ss ih =>
      cases ts with
      | nil => exact fun _ => rfl
      | cons t ts =>
          have hfirst := hpair s t b (.argument k s t :: log) (.argument k' s t :: log')
          rcases hrun : pair s t b (.argument k s t :: log) with ⟨o, log₁⟩
          rcases hrun' : pair' s t b (.argument k' s t :: log') with ⟨o', log₂⟩
          rw [hrun, hrun'] at hfirst
          cases o with
          | unified c =>
              obtain rfl : o' = .unified c := hfirst (by simp)
              rw [pairs_of_unified hrun, pairs_of_unified hrun']
              exact ih (k + 1) (k' + 1) ts c log₁ log₂
          | clash =>
              obtain rfl : o' = .clash := hfirst (by simp)
              rw [pairs_of_stopped hrun (by simp), pairs_of_stopped hrun' (by simp)]
              exact fun _ => rfl
          | endless =>
              rw [pairs_of_stopped hrun (by simp)]
              exact fun h => (h rfl).elim

theorem confirms_arguments (ss ts : List Term) (b : Bindings) (log log' : List Step) :
    Confirms (arguments pair ss ts b log) (arguments pair' ss ts b log') := by
  rw [arguments, arguments]
  split
  · exact confirms_pairs hpair 0 0 ss ts b log log'
  · exact fun _ => rfl

end Confirms

theorem outcome_bind (check : Bool) (x : String) (t : Term) (b : Bindings) (log log' : List Step) :
    (bind check x t b log).1 = (bind check x t b log').1 := by
  rw [bind, bind]
  split
  · split <;> rfl
  · rfl

/-- A larger bound does not change an outcome, and neither do earlier steps. -/
theorem confirms_terms (check : Bool) {n m : Nat} (hnm : n ≤ m) (s t : Term) (b : Bindings)
    (log log' : List Step) : Confirms (terms check n s t b log) (terms check m s t b log') := by
  induction n generalizing m s t b log log' with
  | zero => exact fun h => (h rfl).elim
  | succ n ih =>
      obtain ⟨m, rfl⟩ := Nat.exists_eq_add_of_le' (Nat.le_trans n.succ_pos hnm)
      rw [terms, terms]
      refine resolved_cases_both (motive := Confirms) ?_ ?_ ?_ ?_ ?_ ?_
      · exact fun _ _ _ _ => rfl
      · exact fun x _ _ _ => outcome_bind check x _ b _ _
      · exact fun y _ _ _ => outcome_bind check y _ b _ _
      · intro f ss ts _ _
        exact confirms_arguments
          (fun s t b log log' => ih (Nat.le_of_succ_le_succ hnm) s t b log log') ss ts b _ _
      · exact fun _ _ _ _ _ _ _ _ => rfl
      · intro _ _ _ _
        split <;> rfl

/-- Runs of pairs that end, end alike. -/
theorem outcome_pairs_unique {check : Bool} {n m k k' : Nat} {ss ts : List Term} {b : Bindings}
    {log log' : List Step} {o o' : Outcome} (h : (pairs (terms check n) k ss ts b log).1 = o)
    (h' : (pairs (terms check m) k' ss ts b log').1 = o') (ho : o ≠ .endless)
    (ho' : o' ≠ .endless) : o = o' := by
  have hn := confirms_pairs (confirms_terms check (Nat.le_max_left n m)) k 0 ss ts b log []
  have hm := confirms_pairs (confirms_terms check (Nat.le_max_right n m)) k' 0 ss ts b log' []
  rw [← h, ← h', ← hn (h ▸ ho), ← hm (h' ▸ ho')]

/-! ## Arguments up to a place -/

section Append

variable {pair : Term → Term → Bindings → List Step → Run} {k : Nat} {ss ts ss' ts' : List Term}
  {b c : Bindings} {log log' : List Step} {o : Outcome}

theorem pairs_append_of_unified (hlen : ss.length = ts.length)
    (h : pairs pair k ss ts b log = (.unified c, log')) :
    pairs pair k (ss ++ ss') (ts ++ ts') b log = pairs pair (k + ss.length) ss' ts' c log' := by
  induction ss generalizing k ts b log with
  | nil =>
      obtain rfl := List.length_eq_zero_iff.mp hlen.symm
      obtain ⟨rfl, rfl⟩ : b = c ∧ log = log' := by simpa [pairs] using h
      rfl
  | cons s ss ih =>
      obtain ⟨t, ts, rfl⟩ := List.exists_cons_of_length_eq_add_one hlen.symm
      rcases hrun : pair s t b (.argument k s t :: log) with ⟨o, log₁⟩
      cases o with
      | unified d =>
          rw [pairs_of_unified hrun] at h
          rw [List.cons_append, List.cons_append, pairs_of_unified hrun,
            ih (Nat.succ.inj hlen) h, List.length_cons, Nat.add_right_comm, Nat.add_assoc]
      | clash | endless =>
          rw [pairs_of_stopped hrun (by simp)] at h
          simp at h

theorem pairs_append_of_stopped (hlen : ss.length = ts.length)
    (h : pairs pair k ss ts b log = (o, log')) (ho : ∀ c, o ≠ .unified c) :
    pairs pair k (ss ++ ss') (ts ++ ts') b log = (o, log') := by
  induction ss generalizing k ts b log with
  | nil =>
      obtain ⟨rfl, rfl⟩ : .unified b = o ∧ log = log' := by simpa [pairs] using h
      exact (ho b rfl).elim
  | cons s ss ih =>
      obtain ⟨t, ts, rfl⟩ := List.exists_cons_of_length_eq_add_one hlen.symm
      rcases hrun : pair s t b (.argument k s t :: log) with ⟨o', log₁⟩
      cases o' with
      | unified d =>
          rw [pairs_of_unified hrun] at h
          rw [List.cons_append, List.cons_append, pairs_of_unified hrun]
          exact ih (Nat.succ.inj hlen) h
      | clash | endless =>
          rw [pairs_of_stopped hrun (by simp)] at h
          rw [List.cons_append, List.cons_append, pairs_of_stopped hrun (by simp), h]

/-- Pairs do not end because one of them does not, after those before it were unified. -/
theorem exists_endless_of_pairs (hlen : ss.length = ts.length)
    (h : (pairs pair k ss ts b log).1 = .endless) :
    ∃ ss₁ s ss₂ ts₁ t ts₂ c log', ss = ss₁ ++ s :: ss₂ ∧ ts = ts₁ ++ t :: ts₂ ∧
      ss₁.length = ts₁.length ∧ ss₂.length = ts₂.length ∧
      (pairs pair k ss₁ ts₁ b log).1 = .unified c ∧ (pair s t c log').1 = .endless := by
  induction ss generalizing k ts b log with
  | nil => simp [pairs] at h
  | cons s ss ih =>
      obtain ⟨t, ts, rfl⟩ := List.exists_cons_of_length_eq_add_one hlen.symm
      rcases hrun : pair s t b (.argument k s t :: log) with ⟨o, log₁⟩
      cases o with
      | unified d =>
          rw [pairs_of_unified hrun] at h
          obtain ⟨ss₁, s', ss₂, ts₁, t', ts₂, c, log', rfl, rfl, hlen₁, hlen₂, hfirst, hlast⟩ :=
            ih (Nat.succ.inj hlen) h
          refine ⟨s :: ss₁, s', ss₂, t :: ts₁, t', ts₂, c, log', rfl, rfl, ?_, hlen₂, ?_, hlast⟩
          · rw [List.length_cons, List.length_cons, hlen₁]
          · rw [pairs_of_unified hrun]
            exact hfirst
      | clash =>
          rw [pairs_of_stopped hrun (by simp)] at h
          simp at h
      | endless =>
          exact ⟨[], s, ss, [], t, ts, b, _, rfl, rfl, rfl, Nat.succ.inj hlen, rfl,
            congrArg Prod.fst hrun⟩

end Append

/-! ## Nested pairs -/

/-- Two terms that are to be unified under bindings. -/
structure Pair where
  left : Term
  right : Term
  bindings : Bindings

namespace Pair

variable {check : Bool} {n : Nat} {p q : Pair}

/-- The unification of the pair ends within a bound on the nesting. -/
def EndsWithin (check : Bool) (n : Nat) (p : Pair) : Prop :=
  (terms check n p.left p.right p.bindings []).1 ≠ .endless

def Endless (check : Bool) (p : Pair) : Prop :=
  ∀ n, ¬p.EndsWithin check n

/-- The pair of what the two terms resolve to. -/
def resolved (p : Pair) : Pair :=
  ⟨p.bindings.resolve p.left, p.bindings.resolve p.right, p.bindings⟩

/-- The unification of the first pair gets to the second one, after it has unified the arguments
before it. -/
inductive Nests (check : Bool) : Pair → Pair → Prop
  | intro {s t s' t' : Term} {b c : Bindings} {f : String} {ss ts ss' ts' : List Term} {n : Nat}
      (hs : b.resolve s = .compound f (ss ++ s' :: ss'))
      (ht : b.resolve t = .compound f (ts ++ t' :: ts')) (hlen : ss.length = ts.length)
      (hlen' : ss'.length = ts'.length)
      (h : (pairs (terms check n) 0 ss ts b []).1 = .unified c) :
      Nests check ⟨s, t, b⟩ ⟨s', t', c⟩

theorem endsWithin_resolved : p.resolved.EndsWithin check n ↔ p.EndsWithin check n := by
  cases n with
  | zero => exact Iff.rfl
  | succ n =>
      rw [EndsWithin, EndsWithin, terms, terms, resolved, Bindings.resolve_resolve,
        Bindings.resolve_resolve]

theorem Nests.resolved (h : Nests check p q) : Nests check p.resolved q := by
  cases h with
  | @intro s t _ _ b _ f _ _ _ _ _ hs ht hlen hlen' h =>
      have hs' : b.resolve (b.resolve s) = _ := (b.resolve_resolve s).trans hs
      have ht' : b.resolve (b.resolve t) = _ := (b.resolve_resolve t).trans ht
      exact .intro hs' ht' hlen hlen' h

theorem not_endsWithin {s t : Term} {b : Bindings} {log : List Step}
    (h : (terms check n s t b log).1 = .endless) : ¬EndsWithin check n ⟨s, t, b⟩ := by
  intro hends
  exact hends ((confirms_terms check n.le_refl s t b [] log hends).symm.trans h)

theorem outcome_of_not_endsWithin {s t : Term} {b : Bindings}
    (h : ¬EndsWithin check n ⟨s, t, b⟩) (log : List Step) :
    (terms check n s t b log).1 = .endless := by
  by_contra hne
  have hsame := confirms_terms check n.le_refl s t b log [] hne
  exact h fun hends => hne (hsame.symm.trans hends)

theorem terms_of_compounds (check : Bool) (n : Nat) {s t : Term} {b : Bindings} {f : String}
    {ss ts : List Term} (hs : b.resolve s = .compound f ss) (ht : b.resolve t = .compound f ts)
    (hlen : ss.length = ts.length) (log : List Step) :
    ∃ log', terms check (n + 1) s t b log = pairs (terms check n) 0 ss ts b log' := by
  refine ⟨.comparing (.compound f ss) (.compound f ts) :: log, ?_⟩
  rw [terms, hs, ht, Unify.resolved, if_pos (beq_self_eq_true f), arguments, if_pos hlen]

theorem endsWithin_compound (f : String) {b : Bindings} {ss ts : List Term}
    (hlen : ss.length = ts.length) :
    EndsWithin check (n + 1) ⟨.compound f ss, .compound f ts, b⟩ ↔
      (arguments (terms check n) ss ts b []).1 ≠ .endless := by
  obtain ⟨log, hterms⟩ := terms_of_compounds check n (b := b) (s := .compound f ss)
    (t := .compound f ts) rfl rfl hlen []
  rw [EndsWithin, hterms, arguments, if_pos hlen]
  have hlogs := fun log log' => confirms_pairs (confirms_terms check n.le_refl) 0 0 ss ts b log log'
  exact ⟨fun h => hlogs log [] h ▸ h, fun h => hlogs [] log h ▸ h⟩

/-- A nested pair needs less nesting. -/
theorem Nests.endsWithin (h : Nests check p q) (hp : p.EndsWithin check (n + 1)) :
    q.EndsWithin check n := by
  cases h with
  | @intro s t s' t' b c f ss ts ss' ts' m hs ht hlen hlen' hfirst =>
      by_contra hq
      obtain ⟨log, hterms⟩ := terms_of_compounds check n hs ht (by simp [hlen, hlen']) []
      refine hp ((congrArg Prod.fst hterms).trans ?_)
      -- The arguments before the nested pair are unified within the smaller bound or do not end.
      rcases hrun : pairs (terms check n) 0 ss ts b log with ⟨o, log₁⟩
      cases o with
      | endless => rw [pairs_append_of_stopped hlen hrun (by simp)]
      | clash =>
          have hsame := outcome_pairs_unique (congrArg Prod.fst hrun) hfirst (by simp) (by simp)
          simp at hsame
      | unified d =>
          have hsame := outcome_pairs_unique (congrArg Prod.fst hrun) hfirst (by simp) (by simp)
          obtain rfl : d = c := by simpa using hsame
          have hlast := outcome_of_not_endsWithin hq (.argument (0 + ss.length) s' t' :: log₁)
          rw [pairs_append_of_unified hlen hrun]
          exact congrArg Prod.fst (pairs_of_stopped (Prod.ext hlast rfl) (by simp))

theorem Nests.endless (h : Nests check p q) (hq : q.Endless check) : p.Endless check := by
  intro n hp
  cases n with
  | zero => exact hp rfl
  | succ n => exact hq n (h.endsWithin hp)

/-- Where no arguments are compared, the nesting does not matter. -/
theorem compounds_or_outcome_eq (check : Bool) (s t : Term) (b : Bindings) :
    (∃ f ss ts, b.resolve s = .compound f ss ∧ b.resolve t = .compound f ts ∧
      ss.length = ts.length) ∨
    ∀ n m, (terms check (n + 1) s t b []).1 = (terms check (m + 1) s t b []).1 := by
  by_cases hcompounds : ∃ f ss ts, b.resolve s = .compound f ss ∧ b.resolve t = .compound f ts ∧
      ss.length = ts.length
  · exact .inl hcompounds
  refine .inr fun n m => ?_
  rw [terms, terms]
  refine resolved_cases_both (motive := fun r r' => r.1 = r'.1) ?_ ?_ ?_ ?_ ?_ ?_
  · exact fun _ _ _ => rfl
  · exact fun x _ _ => outcome_bind check x _ b _ _
  · exact fun y _ _ => outcome_bind check y _ b _ _
  · intro f ss ts hs ht
    have hlen : ss.length ≠ ts.length := fun hlen => hcompounds ⟨f, ss, ts, hs, ht, hlen⟩
    rw [arguments, arguments, if_neg hlen, if_neg hlen]
  · exact fun _ _ _ _ _ _ _ => rfl
  · exact fun _ _ _ => rfl

/-- A pair that does not end within a bound gets to one that does not end within a smaller bound, or
the bound does not matter. -/
theorem exists_nests (h : ¬p.EndsWithin check (n + 1)) :
    p.Endless check ∨ ∃ q, Nests check p q ∧ ¬q.EndsWithin check n := by
  obtain ⟨s, t, b⟩ := p
  rcases compounds_or_outcome_eq check s t b with ⟨f, ss, ts, hs, ht, hlen⟩ | heq
  · obtain ⟨log, hterms⟩ := terms_of_compounds check n hs ht hlen []
    have hpairs := outcome_of_not_endsWithin h []
    rw [hterms] at hpairs
    obtain ⟨ss₁, s', ss₂, ts₁, t', ts₂, c, log', rfl, rfl, hlen₁, hlen₂, hfirst, hlast⟩ :=
      exists_endless_of_pairs hlen hpairs
    have hunified : (pairs (terms check n) 0 ss₁ ts₁ b []).1 = .unified c := by
      rw [← hfirst]
      exact confirms_pairs (confirms_terms check n.le_refl) 0 0 ss₁ ts₁ b log [] (by simp [hfirst])
    exact .inr ⟨_, .intro hs ht hlen₁ hlen₂ hunified, not_endsWithin hlast⟩
  · refine .inl fun m hends => ?_
    cases m with
    | zero => exact hends rfl
    | succ m => exact h fun hn => hends ((heq m n).trans hn)

/-- A pair that gets back to itself does not end. -/
theorem endless_of_transGen (h : TransGen (Nests check) p.resolved p) : p.Endless check := by
  have hless : ∀ {q r : Pair}, TransGen (Nests check) q r → ∀ n, q.EndsWithin check n →
      ∃ m < n, r.EndsWithin check m := by
    intro q r hqr
    induction hqr with
    | single hnests =>
        intro n hn
        cases n with
        | zero => exact (hn rfl).elim
        | succ n => exact ⟨n, n.lt_succ_self, hnests.endsWithin hn⟩
    | tail _ hnests ih =>
        intro n hn
        obtain ⟨m, hm, hends⟩ := ih n hn
        cases m with
        | zero => exact (hends rfl).elim
        | succ m => exact ⟨m, by omega, hnests.endsWithin hends⟩
  intro n
  induction n using Nat.strong_induction_on with
  | _ n ih =>
      intro hn
      obtain ⟨m, hm, hends⟩ := hless h n (endsWithin_resolved.mpr hn)
      exact ih m hm hends

end Pair

/-! ## What a path meets -/

section Open

variable {check : Bool} {vs : List String} {b : Bindings} {x : String} {t : Term}

theorem isOpen_iff (hb : b.ChainsEnd) : b.isOpen x = true ↔ b.get? x = none := by
  constructor
  · intro h
    refine hb.get?_of_resolve_var (t := .var x) ?_
    rw [Bindings.isOpen] at h
    split at h
    · next y hy =>
      obtain rfl : x = y := by simpa using h
      exact hy
    · simp at h
  · intro h
    simp [Bindings.isOpen, Bindings.deref_of_unbound h]

/-- Binding a variable leaves one variable less that can be bound. -/
theorem countP_isOpen_insert_lt (hb : b.ChainsEnd) (hins : (b.insert x t).ChainsEnd)
    (hx : b.get? x = none) (hmem : x ∈ vs) :
    vs.countP (b.insert x t).isOpen < vs.countP b.isOpen := by
  have hfilter : vs.countP (b.insert x t).isOpen =
      (vs.filter b.isOpen).countP (b.insert x t).isOpen := by
    rw [List.countP_filter]
    refine List.countP_congr fun y _ => ?_
    rw [Bool.and_eq_true, iff_self_and]
    intro hy
    rw [isOpen_iff hins, Bindings.get?_insert] at hy
    rw [isOpen_iff hb]
    split at hy
    · simp at hy
    · exact hy
  rw [hfilter, List.countP_eq_length_filter (p := b.isOpen), List.countP_lt_length_iff]
  refine ⟨x, List.mem_filter.mpr ⟨hmem, (isOpen_iff hb).mpr hx⟩, ?_⟩
  rw [← Bool.not_eq_true, isOpen_iff hins, Bindings.get?_insert, if_pos rfl]
  simp

variable {p q : Problem}

theorem Move.eq_or_countP_lt (h : Move check p q) (hp : p.bindings.ChainsEnd)
    (hall : p.All fun t => t.vars ⊆ vs) :
    q.bindings = p.bindings ∨
      vs.countP q.bindings.isOpen < vs.countP p.bindings.isOpen := by
  have hends := (h.extends_chainsEnd hp).2
  cases h with
  | same | decompose | leaves => exact .inl rfl
  | bindLeft hs =>
      have hvars := hall.2.resolve (hall.1 _ _ List.mem_cons_self).1
      rw [hs] at hvars
      exact .inr (countP_isOpen_insert_lt hp hends (hp.get?_of_resolve_var hs)
        (hvars List.mem_cons_self))
  | bindRight _ ht =>
      have hvars := hall.2.resolve (hall.1 _ _ List.mem_cons_self).2
      rw [ht] at hvars
      exact .inr (countP_isOpen_insert_lt hp hends (hp.get?_of_resolve_var ht)
        (hvars List.mem_cons_self))

theorem hereditary_vars (vs : List String) : Term.Hereditary fun t => t.vars ⊆ vs := by
  intro f args h a ha x hx
  exact h (Term.mem_vars_compound.mpr ⟨a, ha, hx⟩)

/-- The compound parts and the variables of the term are listed. -/
def Listed (U : List Term) (vs : List String) (t : Term) : Prop :=
  t.compoundParts ⊆ U ∧ t.vars ⊆ vs

theorem Problem.All.vars {U : List Term} (h : p.All (Listed U vs)) : p.All fun t => t.vars ⊆ vs :=
  ⟨fun s t hst => ⟨(h.1 s t hst).1.2, (h.1 s t hst).2.2⟩, fun x t ht => (h.2 x t ht).2⟩

theorem hereditary_listed (U : List Term) (vs : List String) : Term.Hereditary (Listed U vs) :=
  fun f args h a ha =>
    ⟨Term.hereditary_compoundParts U f args h.1 a ha, hereditary_vars vs f args h.2 a ha⟩

theorem Moves.eq_or_countP_lt (h : Moves check p q) (hp : p.bindings.ChainsEnd)
    (hall : p.All fun t => t.vars ⊆ vs) :
    q.bindings = p.bindings ∨
      vs.countP q.bindings.isOpen < vs.countP p.bindings.isOpen := by
  induction h with
  | refl => exact .inl rfl
  | tail hmoves hmove ih =>
      have hmid := (Moves.extends_chainsEnd hmoves hp).2
      have hlast := hmove.eq_or_countP_lt hmid (Moves.all (hereditary_vars vs) hmoves hall)
      rcases ih with heq | hlt
      · rwa [heq] at hlast
      · rcases hlast with heq' | hlt'
        · exact .inr (heq' ▸ hlt)
        · exact .inr (hlt'.trans hlt)

end Open

namespace Pair

variable {check : Bool} {n : Nat} {p q : Pair} {P : Term → Prop}

/-- The arguments of the two terms have the property, and so have the values of the bindings. -/
structure ArgumentsAll (P : Term → Prop) (p : Pair) : Prop where
  left : ∀ f args, p.bindings.resolve p.left = .compound f args → ∀ a ∈ args, P a
  right : ∀ f args, p.bindings.resolve p.right = .compound f args → ∀ a ∈ args, P a
  values : p.bindings.Values P

theorem argumentsAll (hP : Term.Hereditary P) (hleft : P p.left) (hright : P p.right)
    (hvalues : p.bindings.Values P) : p.ArgumentsAll P where
  left f args h := hP f args (h ▸ hvalues.resolve hleft)
  right f args h := hP f args (h ▸ hvalues.resolve hright)
  values := hvalues

theorem Nests.mem_compoundParts (h : Nests check p q) :
    p.bindings.resolve p.left ∈ (p.bindings.resolve p.left).compoundParts ∧
      p.bindings.resolve p.right ∈ (p.bindings.resolve p.right).compoundParts := by
  cases h with
  | intro hs ht =>
      dsimp only
      rw [hs, ht, Term.compoundParts, Term.compoundParts]
      exact ⟨List.mem_cons_self, List.mem_cons_self⟩

/-- A nested pair is reached by moves of the pairs before it. -/
theorem Nests.exists_moves (h : Nests check p q) (hall : p.ArgumentsAll P) :
    P q.left ∧ P q.right ∧ ∃ ps, Problem.All P ⟨ps, p.bindings⟩ ∧
      Moves check ⟨ps, p.bindings⟩ ⟨[], q.bindings⟩ := by
  cases h with
  | @intro s t s' t' b c f ss ts ss' ts' m hs ht hlen hlen' hfirst =>
      have hleft := hall.left f _ hs
      have hright := hall.right f _ ht
      refine ⟨hleft s' (by simp), hright t' (by simp), ss.zip ts,
        ⟨fun l r hlr => ?_, hall.values⟩, ?_⟩
      · obtain ⟨hl, hr⟩ := List.of_mem_zip hlr
        exact ⟨hleft l (List.mem_append_left _ hl), hright r (List.mem_append_left _ hr)⟩
      · have hexp := explained_pairs (explained_terms check m) 0 ss ts b []
        rw [hfirst] at hexp
        simpa using hexp []

/-- A pair that does not end within the bound does not end. The pairs that were met since the last
variable was bound all lead to it. -/
theorem endless_of_not_endsWithin {U : List Term} {vs : List String} (seen : List (Term × Term))
    (hends : p.bindings.ChainsEnd) (hleft : Listed U vs p.left) (hright : Listed U vs p.right)
    (hvalues : p.bindings.Values (Listed U vs)) (hnodup : seen.Nodup) (hseen : seen ⊆ U ×ˢ U)
    (hleads : ∀ u v, (u, v) ∈ seen → TransGen (Nests check) ⟨u, v, p.bindings⟩ p)
    (hn : U.length * U.length * (vs.countP p.bindings.isOpen + 1) < n + seen.length)
    (h : ¬p.EndsWithin check n) : p.Endless check := by
  have hP := hereditary_listed U vs
  induction n generalizing p seen with
  | zero =>
      have hle := (List.subperm_of_subset hnodup hseen).length_le
      rw [List.length_product] at hle
      have hpos : U.length * U.length ≤ U.length * U.length * (vs.countP p.bindings.isOpen + 1) :=
        Nat.le_mul_of_pos_right _ (Nat.succ_pos _)
      omega
  | succ n ih =>
      rcases exists_nests h with hendless | ⟨q, hnests, hq⟩
      · exact hendless
      by_cases hmem : (p.bindings.resolve p.left, p.bindings.resolve p.right) ∈ seen
      · exact endless_of_transGen (hleads _ _ hmem)
      refine hnests.endless ?_
      obtain ⟨hql, hqr, ps, hall, hmoves⟩ := hnests.exists_moves
        (argumentsAll hP hleft hright hvalues)
      have hqends := (hmoves.extends_chainsEnd hends).2
      have hqvalues := (hmoves.all hP hall).2
      have hnew : (p.bindings.resolve p.left, p.bindings.resolve p.right) ∈ U ×ˢ U :=
        List.mem_product.mpr ⟨(hvalues.resolve hleft).1 hnests.mem_compoundParts.1,
          (hvalues.resolve hright).1 hnests.mem_compoundParts.2⟩
      have hnodup' := List.nodup_cons.mpr ⟨hmem, hnodup⟩
      have hseen' := List.cons_subset.mpr ⟨hnew, hseen⟩
      rcases hmoves.eq_or_countP_lt hends hall.vars with heq | hlt
      · -- No variable was bound: the pair at hand is one more that leads to the nested one.
        refine ih _ hqends hql hqr hqvalues hnodup' hseen' ?_ ?_ hq
        · intro u v huv
          rw [show q.bindings = p.bindings from heq]
          rcases List.mem_cons.mp huv with huv | huv
          · obtain ⟨rfl, rfl⟩ := Prod.mk.inj huv
            exact .single hnests.resolved
          · exact (hleads u v huv).tail hnests
        · rw [show q.bindings = p.bindings from heq, List.length_cons]
          omega
      · -- A variable was bound: the pairs are counted anew, for one variable less.
        refine ih [] hqends hql hqr hqvalues .nil (List.nil_subset _) (by simp) ?_ hq
        have hle := (List.subperm_of_subset hnodup' hseen').length_le
        rw [List.length_product, List.length_cons] at hle
        have hmul : U.length * U.length * (vs.countP q.bindings.isOpen + 1) ≤
            U.length * U.length * vs.countP p.bindings.isOpen := Nat.mul_le_mul_left _ hlt
        rw [Nat.mul_succ] at hn
        rw [List.length_nil]
        omega

end Pair

/-! ## Whole runs -/

section Start

variable {check : Bool} {ts : List Term} {b : Bindings}

theorem length_compoundParts_start (ts : List Term) (b : Bindings) :
    (b.compoundParts ++ Term.compoundPartsAll ts).length = b.weight + Term.compoundsAll ts := by
  rw [List.length_append, b.length_compoundParts, Term.length_compoundPartsAll]

theorem listed_start {t : Term} (ht : t ∈ ts) (b : Bindings) :
    Listed (b.compoundParts ++ Term.compoundPartsAll ts) (allVars ts b) t := by
  refine ⟨fun c hc => List.mem_append_right _ (Term.compoundParts_subset ht hc), fun x hx => ?_⟩
  rw [allVars, List.mem_eraseDups, Term.varsAll_eq]
  exact List.mem_append_left _ (List.mem_flatMap.mpr ⟨t, ht, hx⟩)

theorem values_listed_start (ts : List Term) (b : Bindings) :
    b.Values (Listed (b.compoundParts ++ Term.compoundPartsAll ts) (allVars ts b)) := by
  intro x t ht
  refine ⟨fun c hc => List.mem_append_left _ (b.values_compoundParts x t ht hc), fun y hy => ?_⟩
  rw [allVars, List.mem_eraseDups]
  refine List.mem_append_right _
    (List.mem_flatMap.mpr ⟨(x, t), Bindings.mem_entries_of_get? ht, ?_⟩)
  exact List.mem_cons_of_mem _ hy

/-- The last bound of a run. -/
def lastBound (ts : List Term) (b : Bindings) : Nat :=
  (b.weight + Term.compoundsAll ts) * (b.weight + Term.compoundsAll ts) * (openCount ts b + 1) + 1

theorem within_endless_iff {run : Nat → Run}
    (hlast : (run (lastBound ts b)).1 = .endless → ∀ n, (run n).1 = .endless) :
    (within ts b run).1 = .endless ↔ ∀ n, (run n).1 = .endless := by
  constructor
  · intro h
    by_cases hfirst : (run (b.weight + Term.compoundsAll ts + 1)).1 = .endless
    · rw [within_of_endless hfirst] at h
      exact hlast h
    · rw [within_eq hfirst] at h
      exact (hfirst h).elim
  · intro h
    rw [within_of_endless (h _)]
    exact h _

/-- For terms of the start, under bindings that the run gets to, the last bound decides. -/
theorem endless_of_lastBound {p : Pair} (hends : p.bindings.ChainsEnd)
    (hleft : Listed (b.compoundParts ++ Term.compoundPartsAll ts) (allVars ts b) p.left)
    (hright : Listed (b.compoundParts ++ Term.compoundPartsAll ts) (allVars ts b) p.right)
    (hvalues :
      p.bindings.Values (Listed (b.compoundParts ++ Term.compoundPartsAll ts) (allVars ts b)))
    (hopen : (allVars ts b).countP p.bindings.isOpen ≤ openCount ts b)
    (h : ¬p.EndsWithin check (lastBound ts b)) : p.Endless check := by
  refine p.endless_of_not_endsWithin [] hends hleft hright hvalues .nil
    (List.nil_subset _) (by simp) ?_ h
  rw [length_compoundParts_start, lastBound, List.length_nil]
  exact Nat.lt_succ_of_le (Nat.mul_le_mul_left _ (Nat.succ_le_succ hopen))

end Start

end Unify

namespace Unifier

open Unify

variable {u : Unifier} {b : Bindings} (hb : b.ChainsEnd)

include hb

/-- The unification of two terms is reported to be without an end exactly if no bound suffices. -/
theorem run_endless_iff (s t : Term) : (u.run s t b).1 = .endless ↔
    ∀ n, (terms u.occursCheck n s t b []).1 = .endless := by
  refine within_endless_iff fun hlast n => ?_
  have hendless : Pair.Endless u.occursCheck ⟨s, t, b⟩ :=
    endless_of_lastBound hb (listed_start (by simp) b) (listed_start (by simp) b)
      (values_listed_start _ b) le_rfl (Pair.not_endsWithin hlast)
  exact Pair.outcome_of_not_endsWithin (hendless n) []

theorem runArgs_endless_iff (ss ts : List Term) : (u.runArgs ss ts b).1 = .endless ↔
    ∀ n, (arguments (terms u.occursCheck n) ss ts b []).1 = .endless := by
  refine within_endless_iff fun hlast => ?_
  by_cases hlen : ss.length = ts.length
  · -- The lists are unified like the arguments of two compound terms.
    have hwhole : ∀ n, Pair.EndsWithin u.occursCheck (n + 1) ⟨.compound "" ss, .compound "" ts, b⟩ ↔
        (arguments (terms u.occursCheck n) ss ts b []).1 ≠ .endless :=
      fun n => Pair.endsWithin_compound "" hlen
    suffices hendless : Pair.Endless u.occursCheck ⟨.compound "" ss, .compound "" ts, b⟩ from
      fun n => not_not.mp fun hne => hendless (n + 1) ((hwhole n).mpr hne)
    have hargs : Pair.ArgumentsAll
        (Listed (b.compoundParts ++ Term.compoundPartsAll (ss ++ ts)) (allVars (ss ++ ts) b))
        ⟨.compound "" ss, .compound "" ts, b⟩ := by
      refine ⟨fun f args h a ha => ?_, fun f args h a ha => ?_, values_listed_start _ b⟩
      · obtain ⟨rfl, rfl⟩ := Term.compound.inj h
        exact listed_start (List.mem_append_left _ ha) b
      · obtain ⟨rfl, rfl⟩ := Term.compound.inj h
        exact listed_start (List.mem_append_right _ ha) b
    rcases Pair.exists_nests (fun h => (hwhole _).mp h hlast) with hendless | ⟨q, hnests, hq⟩
    · exact hendless
    obtain ⟨hql, hqr, ps, hall, hmoves⟩ := hnests.exists_moves hargs
    refine hnests.endless (endless_of_lastBound (hmoves.extends_chainsEnd hb).2 hql hqr
      (hmoves.all (hereditary_listed _ _) hall).2 ?_ hq)
    rcases hmoves.eq_or_countP_lt hb hall.vars with heq | hlt
    · exact le_of_eq (by rw [show q.bindings = b from heq, openCount])
    · exact hlt.le
  · rw [arguments, if_neg hlen] at hlast
    simp at hlast

end Unifier

end Clausal
