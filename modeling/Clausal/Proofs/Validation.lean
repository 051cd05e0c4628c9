import Clausal.Validation
import Mathlib.Tactic.Common

/-!
# What passing validation means

A verdict is read off from its error alone. Each check is brought into the form of the
condition that it tests, so that later proofs never look at messages, at sorted lists of names
or at the order of checks.
-/

namespace Clausal

namespace Verdict

@[simp] theorem isValid_accepted : accepted.isValid = true := rfl

@[simp] theorem isValid_rejected (reason : String) : (rejected reason).isValid = false := rfl

theorem isValid_combine (vs : List Verdict) : (combine vs).isValid = vs.all isValid := by
  rw [combine]
  cases hfind : vs.find? (!·.isValid) with
  | some v =>
      have hv : v.isValid = false := by simpa using List.find?_some hfind
      have hmem := List.mem_of_find?_eq_some hfind
      exact hv.trans (List.all_eq_false.mpr ⟨v, hmem, by simp [hv]⟩).symm
  | none =>
      have hall : vs.all isValid = true := by simpa using hfind
      rw [hall]
      dsimp only
      split <;> rfl

end Verdict

namespace Validation

theorem sortedNames_eq_nil_iff {names : List String} : sortedNames names = [] ↔ names = [] := by
  rw [sortedNames, ← List.length_eq_zero_iff, List.length_mergeSort, List.length_eq_zero_iff]
  cases names with
  | nil => simp
  | cons x xs => simp [List.eraseDups_cons]

theorem isValid_wellFormed {r : Rule} :
    (wellFormed r).isValid = true ↔ r.body ≠ [] ∧ isBuiltin r.predicate = false := by
  rw [wellFormed]
  split
  · simp_all
  · split <;> simp_all

theorem mem_positiveVars {r : Rule} {x : String} :
    x ∈ positiveVars r ↔ ∃ g ∈ r.body, g.negated = false ∧ x ∈ g.vars := by
  simp [positiveVars, and_assoc]

theorem isValid_safe {r : Rule} :
    (safe r).isValid = true ↔ ∀ x ∈ r.head.vars, ∃ g ∈ r.body, g.negated = false ∧ x ∈ g.vars := by
  have hnil : unboundVars r = [] ↔ ∀ x ∈ r.head.vars, x ∈ positiveVars r := by
    rw [unboundVars, sortedNames_eq_nil_iff, List.filter_eq_nil_iff]
    simp
  simp only [← mem_positiveVars]
  rw [← hnil, safe]
  split
  · next h => simp [h]
  · next h => simpa using h

theorem isValid_structural {warn : Bool} {r : Rule} :
    (structural warn r).isValid = true ↔
      (wellFormed r).isValid = true ∧ (safe r).isValid = true := by
  have hwarn : (singletonWarning r).isValid = true := by
    rw [singletonWarning]
    split <;> rfl
  rw [structural]
  split
  · simp_all
  · split
    · simp_all
    · split <;> simp_all

theorem isValid_signature {table : Signatures} {p : String} {n : Nat} :
    (signature table p n).isValid = true ↔
      if isBuiltin p then n = Builtin.arity else ∀ k, table.lookup p = some k → k = n := by
  rw [signature]
  split
  · split <;> simp_all
  · cases table.lookup p with
    | none => simp
    | some k =>
        dsimp only
        split <;> simp_all

theorem isValid_ruleSignatures {table : Signatures} {r : Rule} :
    (ruleSignatures table r).isValid = true ↔
      (signature table r.predicate r.head.arity).isValid = true ∧
        ∀ g ∈ r.body, (signature table g.predicate g.arity).isValid = true := by
  rw [ruleSignatures, Verdict.isValid_combine]
  simp

theorem isValid_rule {table : Signatures} {warn : Bool} {r : Rule} :
    (rule (some table) warn r).isValid = true ↔
      (wellFormed r).isValid = true ∧ (safe r).isValid = true ∧
        (ruleSignatures table r).isValid = true := by
  rw [rule, ruleChecks, Verdict.isValid_combine]
  simp [isValid_structural, and_assoc]

theorem isValid_of_fact {table : Signatures} {f : Fact} {v : Verdict}
    (h : fact (some table) f = .ok v) (hv : v.isValid = true) :
    isBuiltin f.predicate = false ∧ f.vars = [] ∧
      (signature table f.predicate f.arity).isValid = true := by
  cases hground : groundFact f with
  | error e =>
      rw [fact, hground] at h
      exact absurd h (by simp [bind, Except.bind])
  | ok ground =>
      rw [fact, hground] at h
      obtain rfl : Verdict.combine [ground, signature table f.predicate f.arity] = v :=
        Except.ok.inj h
      obtain ⟨hvalid, hsig⟩ : ground.isValid = true ∧
          (signature table f.predicate f.arity).isValid = true := by
        simpa [Verdict.isValid_combine] using hv
      rw [groundFact] at hground
      split at hground
      · obtain rfl := Except.ok.inj hground
        simp at hvalid
      · next hbuiltin =>
        split at hground
        · next hnames =>
          exact ⟨by simpa using hbuiltin, sortedNames_eq_nil_iff.mp hnames, hsig⟩
        · split at hground
          · obtain rfl := Except.ok.inj hground
            simp at hvalid
          · simp at hground

end Validation

end Clausal
