import Clausal.Proofs.Arithmetic
import Clausal.Proofs.Search.Selection

/-!
# Faults of a step

A step fails because something that a message shows has no text, or because a term has no end, which
does not happen under acyclic bindings with the occurs check. Beyond the depth limit it also fails.
-/

namespace Clausal

/-- Whether something fails because a message has no text. -/
def isUnwritable {α : Type} : Except Fault α → Bool
  | .error .unwritable => true
  | _ => false

theorem eq_unwritable {α : Type} {x : Except Fault α} (h : isUnwritable x = true) :
    x = .error .unwritable := by
  unfold isUnwritable at h
  split at h
  · rfl
  · simp at h

/-! ## Arithmetic -/

/-- The faults of a calculation: it has no value, or the message that says so has no text. -/
def CalculationFault (e : Fault) : Prop :=
  (∃ cause, e = .arithmetic cause) ∨ e = .unwritable

theorem calculationFault_notArithmetic (t : Term) : CalculationFault (notArithmetic t) := by
  rw [notArithmetic]
  split
  · exact .inl ⟨_, rfl⟩
  · exact .inr rfl

theorem Operation.fault_of_compute {op : Operation} {t : Term} {a b : Number} {e : Fault}
    (h : op.compute t a b = .error e) : CalculationFault e := by
  rw [compute] at h
  split at h
  · exact .inl ⟨_, (Except.error.inj h).symm⟩
  · split at h
    · simp at h
    · obtain rfl := Except.error.inj h
      rw [overflowIn]
      split
      · exact .inl ⟨_, rfl⟩
      · exact .inr rfl

theorem Term.fault_of_evaluateWith {look : String → Except Fault Number} {t : Term} {e : Fault}
    (h : t.evaluateWith look = .error e) :
    CalculationFault e ∨ ∃ x ∈ t.vars, look x = .error e := by
  induction t with
  | var x => exact .inr ⟨x, by simp [vars], h⟩
  | int _ | float _ => simp [evaluateWith] at h
  | atom _ | str _ =>
      obtain rfl := Except.error.inj h
      exact .inl (calculationFault_notArithmetic _)
  | compound f args ih =>
      rcases binary_or_notArithmetic f args with ⟨l, r, rfl⟩ | hnone
      · have hmem : ∀ u ∈ [l, r], (∃ x ∈ u.vars, look x = .error e) →
            ∃ x ∈ (compound f [l, r]).vars, look x = .error e := by
          rintro u hu ⟨x, hx, hlook⟩
          exact ⟨x, mem_vars_compound.mpr ⟨u, hu, hx⟩, hlook⟩
        rw [evaluateWith] at h
        split at h
        · exact .inl (.inl ⟨_, (Except.error.inj h).symm⟩)
        · split at h
          · next e' hl =>
            obtain rfl := Except.error.inj h
            exact (ih l (by simp) hl).imp_right (hmem l (by simp))
          · split at h
            · next e' hr =>
              obtain rfl := Except.error.inj h
              exact (ih r (by simp) hr).imp_right (hmem r (by simp))
            · exact .inl (Operation.fault_of_compute h)
      · rw [hnone] at h
        obtain rfl := Except.error.inj h
        exact .inl (calculationFault_notArithmetic _)

namespace Bindings

/-- Looking up a number goes on forever only through a cycle. -/
theorem fault_of_numberOf {b : Bindings} {k : Nat} {x : String} {e : Fault}
    (h : b.numberOf k x = .error e) :
    CalculationFault e ∨ e = .endless ∧ (b.Acyclic → k ≤ b.rank x) := by
  induction k generalizing x with
  | zero => exact .inr ⟨(Except.error.inj h).symm, fun _ => Nat.zero_le _⟩
  | succ k ih =>
      rw [numberOf] at h
      split at h
      · obtain rfl := Except.error.inj h
        exact .inl (calculationFault_notArithmetic _)
      · next hvar =>
        rcases Term.fault_of_evaluateWith h with hfault | ⟨y, hy, hlook⟩
        · exact .inl hfault
        · -- The look-up goes on with a variable of lower rank.
          refine (ih hlook).imp_right fun hlooked => ⟨hlooked.1, fun hb => ?_⟩
          rcases hb.deref_cases x with ⟨z, hz, _⟩ | ⟨_, hless⟩
          · exact (hvar z hz).elim
          · have := hlooked.2 hb
            have := hless y hy
            omega

theorem fault_of_evaluate {b : Bindings} {t : Term} {e : Fault} (h : b.evaluate t = .error e) :
    CalculationFault e ∨ e = .endless ∧ ¬ b.Acyclic := by
  rcases Term.fault_of_evaluateWith h with hfault | ⟨x, _, hlook⟩
  · exact .inl hfault
  · refine (fault_of_numberOf hlook).imp_right fun hlooked => ⟨hlooked.1, fun hb => ?_⟩
    have := hlooked.2 hb
    have := b.rank_le_count x
    omega

end Bindings

/-! ## Unification -/

/-- The faults of one step under bindings: something has no text, or has no end. The latter needs a
cycle, which the occurs check prevents. -/
def StepFault (u : Unifier) (b : Bindings) (e : Fault) : Prop :=
  e = .unwritable ∨ e = .endless ∧ ¬ (u.occursCheck = true ∧ b.Acyclic)

theorem StepFault.of_bindings {u : Unifier} {b c : Bindings} {e : Fault} (h : StepFault u c e)
    (hb : u.occursCheck = true → b.Acyclic → c.Acyclic) : StepFault u b e :=
  h.imp_right fun ⟨hendless, hc⟩ => ⟨hendless, fun ⟨hu, hacyclic⟩ => hc ⟨hu, hb hu hacyclic⟩⟩

theorem StepFault.ne_divergent {u : Unifier} {b : Bindings} {e : Fault} (h : StepFault u b e) :
    e ≠ .divergent := by
  rcases h with rfl | ⟨rfl, _⟩ <;> simp

namespace Unifier

variable {u : Unifier} {b : Bindings} {e : Fault}

theorem fault_of_conclude {r : Unify.Run} (h : Unify.conclude r = .error e) :
    e = .unwritable ∨ e = .endless ∧ r.1 = .endless := by
  rw [Unify.conclude] at h
  split at h
  · split at h
    · simp at h
    · simp at h
    · next hendless => exact .inr ⟨(Except.error.inj h).symm, hendless⟩
  · exact .inl (Except.error.inj h).symm

theorem fault_of_unify {s t : Term} (h : u.unify s t b = .error e) : StepFault u b e :=
  (fault_of_conclude h).imp_right fun ⟨hendless, hrun⟩ =>
    ⟨hendless, fun ⟨hu, hb⟩ => (run_eq_terms hu hb s t).2 hrun⟩

theorem fault_of_unifyArgs {ss ts : List Term} (h : u.unifyArgs ss ts b = .error e) :
    StepFault u b e :=
  (fault_of_conclude h).imp_right fun ⟨hendless, hrun⟩ =>
    ⟨hendless, fun ⟨hu, hb⟩ => (runArgs_eq_arguments hu hb ss ts).2 hrun⟩

end Unifier

namespace Builtin

variable {u : Unifier} {b : Bindings} {e : Fault}

theorem fault_of_valueTerm? {t : Term} (h : valueTerm? t b = .error e) : StepFault u b e := by
  rw [valueTerm?] at h
  split at h
  · simp at h
  · simp at h
  · next e' hcause hvalue =>
    obtain rfl := Except.error.inj h
    rcases Bindings.fault_of_evaluate hvalue with (⟨cause, rfl⟩ | hwrite) | ⟨hendless, hb⟩
    · exact (hcause cause rfl).elim
    · exact .inl hwrite
    · exact .inr ⟨hendless, fun hboth => hb hboth.2⟩

theorem fault_of_solve {g : Goal} (h : solve u g b = .error e) : StepFault u b e := by
  rw [solve] at h
  split at h
  · rw [solveResolved] at h
    split at h
    · exact Unifier.fault_of_unify h
    · split at h
      · split at h <;> simp at h
      · split at h
        · split at h
          · next hvalue =>
            obtain rfl := Except.error.inj h
            exact fault_of_valueTerm? hvalue
          · simp at h
          · exact Unifier.fault_of_unify h
        · simp at h
  · simp at h

end Builtin

namespace Search

/-! ## Steps -/

section Steps

variable {kb : KnowledgeBase} {u : Unifier} {b : Bindings} {e : Fault}

theorem isReady?_ne_none (hb : b.Acyclic) (g : Goal) : isReady? g b ≠ none := by
  rw [isReady?, hb.substituteAll?_eq]
  split
  · simp
  · split
    · simp [hb.substitute?_eq]
    · simp

theorem selectFrom?_ne_none (hb : b.Acyclic) (i : Nat) (best : Option (Nat × Nat))
    (gs : List Goal) :
    selectFrom? kb b i best gs ≠ none := by
  induction gs generalizing i best with
  | nil => simp [selectFrom?]
  | cons g gs ih =>
      rw [selectFrom?]
      split
      · next hready => exact (isReady?_ne_none hb g hready).elim
      · exact ih _ _
      · cases best <;> exact ih _ _

theorem selectIndex?_ne_none (hb : b.Acyclic) (gs : List Goal) : selectIndex? kb gs b ≠ none := by
  rw [selectIndex?]
  split
  · next hfrom => exact (selectFrom?_ne_none hb 0 none gs hfrom).elim
  · simp
  · simp

theorem fault_of_propagate {gs : List Goal} (h : propagate kb u gs b = .error e) :
    StepFault u b e := by
  induction gs generalizing b with
  | nil => simp [propagate] at h
  | cons g gs ih =>
      rcases propagate_cons kb u g gs b with ⟨_, heq⟩ | ⟨_, heq⟩ | ⟨f, _, _, heq⟩
      · exact ih (heq ▸ h)
      · simp [heq] at h
      · rw [heq] at h
        split at h
        · next hunify =>
          obtain rfl := Except.error.inj h
          exact Unifier.fault_of_unifyArgs hunify
        · simp at h
        · next hunify =>
          exact (ih h).of_bindings fun hu hb => (Unifier.moves_of_unifyArgs hu hb hunify).acyclic hb

theorem fault_of_select {strategy : Strategy} {g : Goal} {gs : List Goal}
    (h : select kb u strategy g gs b = .error e) : StepFault u b e := by
  cases strategy with
  | baseline => simp [select] at h
  | constrained =>
      rw [select] at h
      split at h
      · next hpropagate =>
        obtain rfl := Except.error.inj h
        exact fault_of_propagate hpropagate
      · simp at h
      · next c hpropagate =>
        split at h
        · next hindex =>
          obtain rfl := Except.error.inj h
          refine .inr ⟨rfl, fun hsound => ?_⟩
          exact selectIndex?_ne_none (sound_of_propagate hsound.1 hsound.2 hpropagate).2 _ hindex
        · simp at h

variable {o : Options} {sel : Selection} {depth : Nat} {p : Progress}

theorem fault_of_traceGoal (h : traceGoal o sel depth p = .error e) :
    StepFault o.unifier sel.bindings e := by
  rw [traceGoal] at h
  split at h
  · split at h
    · next hnone =>
      obtain rfl := Except.error.inj h
      refine .inr ⟨rfl, fun hsound => ?_⟩
      simp [Goal.substitute?, hsound.2.substituteAll?_eq] at hnone
    · simp at h
  · simp at h

theorem fault_of_tryFact {f : Fact} (h : (tryFact o sel depth f p).1 = .error e) :
    StepFault o.unifier sel.bindings e := by
  rw [tryFact] at h
  split at h
  · simp at h
  · dsimp only at h
    split at h
    · next hunify =>
      obtain rfl := Except.error.inj h
      exact Unifier.fault_of_unifyArgs hunify
    · simp at h
    · simp at h

theorem fault_of_tryRule {r : Rule} (h : (tryRule o sel depth r p).1 = .error e) :
    StepFault o.unifier sel.bindings e := by
  rw [tryRule] at h
  split at h
  · simp at h
  · dsimp only at h
    split at h
    · next hunify =>
      obtain rfl := Except.error.inj h
      exact Unifier.fault_of_unifyArgs hunify
    · simp at h
    · simp at h

theorem fault_of_attempts {t : Task} {a : Progress → Attempt} (ha : a ∈ attempts t sel depth)
    (h : (a p).1 = .error e) : StepFault t.options.unifier sel.bindings e := by
  rcases List.mem_append.mp ha with hfact | hrule
  · obtain ⟨f, _, rfl⟩ := List.mem_map.mp hfact
    exact fault_of_tryFact h
  · obtain ⟨r, _, rfl⟩ := List.mem_map.mp hrule
    exact fault_of_tryRule h

end Steps

theorem tooDeep_ne_divergent {o : Options} {s : State} (h : o.limit.isExceededBy s.depth = true)
    (p : Progress) : (tooDeep o s p).1 ≠ .divergent := by
  rw [tooDeep]
  split
  · next hfloor => simp [Limit.isExceededBy, hfloor] at h
  · dsimp only
    split <;> simp

/-- A step does not stop a run for having no end. -/
def Next.Ends : Next → Prop
  | .running _ => True
  | .stopped r => r.outcome ≠ .error .divergent

namespace Machine

section Ends

variable (t : Task) (m : Machine) (frames : List Frame)

theorem ends_fail {e : Fault} (h : e ≠ .divergent) (p : Progress) : Next.Ends (fail e p) := by
  simpa [Next.Ends, fail] using h

theorem ends_prove (b : Bindings) (p : Progress) : Next.Ends (prove t m b frames p) := by
  rw [prove]
  split
  · trivial
  · dsimp only
    split
    · simp [Next.Ends, finish]
    · trivial

theorem ends_resolve (sel : Selection) (depth : Nat) (p : Progress) :
    Next.Ends (resolve t m sel depth frames p) := by
  rw [resolve]
  split
  · next htrace => exact ends_fail (fault_of_traceGoal htrace).ne_divergent p
  · split
    · trivial
    · split
      · split
        · next hsolve => exact ends_fail (Builtin.fault_of_solve hsolve).ne_divergent _
        · trivial
        · trivial
      · trivial

theorem ends_visit (s : State) : Next.Ends (visit t m s frames) := by
  rw [visit]
  split
  · next hdeep => exact ends_fail (tooDeep_ne_divergent hdeep _) _
  · dsimp only
    split
    · exact ends_prove t m frames _ _
    · split
      · next hselect => exact ends_fail (fault_of_select hselect).ne_divergent _
      · trivial
      · exact ends_resolve t m frames _ _ _

theorem ends_advance (left : Choices) {a : Attempt} (h : ∀ e, a.1 = .error e → e ≠ .divergent) :
    Next.Ends (m.advance left frames a) := by
  rcases a with ⟨e | _ | s, p⟩
  · exact ends_fail (h e rfl) p
  · trivial
  · trivial

theorem ends_choose (c : Choices) : Next.Ends (choose t m c frames) := by
  rw [choose]
  split
  · exact ends_advance m frames _ fun e he => (fault_of_tryFact he).ne_divergent
  · exact ends_advance m frames _ fun e he => (fault_of_tryRule he).ne_divergent
  · trivial

theorem ends_step : Next.Ends (m.step t) := by
  rw [step]
  split
  · rw [leave]
    split
    · simp [Next.Ends, finish]
    · trivial
  · exact ends_visit t m _ _
  · exact ends_choose t m _ _

end Ends

end Machine

end Search

end Clausal
