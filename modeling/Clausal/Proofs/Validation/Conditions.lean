import Clausal.Proofs.Term.Instance
import Clausal.Proofs.Validation
import Mathlib.Algebra.GroupWithZero.Nat
import Mathlib.Data.String.Basic

/-!
# The conditions on rules

What a rule should satisfy, said without the checks: it has goals, its head is not built in, every
variable of its head occurs in a goal that is not negated, and the literals have the arities that
are known. The conditions come in an order, and each has a message. The verdict on a rule is an
error exactly if a condition is violated, and then it is the message of the first one. A rule that
satisfies all of them is warned of if a variable occurs only once in it.
-/

namespace Clausal

/-! ## Occurrences -/

namespace Term

mutual

/-- How often a variable occurs in a term, at any depth. -/
def occurrences (x : String) : Term → Nat
  | .var y => if y = x then 1 else 0
  | .compound _ args => occurrencesAll x args
  | _ => 0

def occurrencesAll (x : String) : List Term → Nat
  | [] => 0
  | t :: ts => occurrences x t + occurrencesAll x ts

end

theorem count_varsAll_of_forall {x : String} {ts : List Term}
    (h : ∀ t ∈ ts, t.vars.count x = t.occurrences x) :
    (varsAll ts).count x = occurrencesAll x ts := by
  induction ts with
  | nil => rfl
  | cons t ts ih =>
      rw [varsAll, List.count_append, occurrencesAll, h t List.mem_cons_self,
        ih fun u hu => h u (List.mem_cons_of_mem t hu)]

theorem count_vars (x : String) (t : Term) : t.vars.count x = t.occurrences x := by
  induction t with
  | var y => simp [vars, occurrences, List.count_singleton]
  | compound f args ih => exact count_varsAll_of_forall ih
  | _ => rfl

theorem count_varsAll (x : String) (ts : List Term) : (varsAll ts).count x = occurrencesAll x ts :=
  count_varsAll_of_forall fun t _ => count_vars x t

theorem mem_varsAll_iff_occurrencesAll {x : String} {ts : List Term} :
    x ∈ varsAll ts ↔ 0 < occurrencesAll x ts := by
  rw [← count_varsAll, List.count_pos_iff]

end Term

def Fact.occurrences (x : String) (f : Fact) : Nat := Term.occurrencesAll x f.args

def Goal.occurrences (x : String) (g : Goal) : Nat := Term.occurrencesAll x g.args

/-- How often a variable occurs in a rule, in its head and its goals together. -/
def Rule.occurrences (x : String) (r : Rule) : Nat :=
  r.head.occurrences x + (r.body.map (Goal.occurrences x)).sum

theorem Rule.count_vars (x : String) (r : Rule) : r.vars.count x = r.occurrences x := by
  have hbody : List.count x ∘ Goal.vars = Goal.occurrences x :=
    funext fun g => Term.count_varsAll x g.args
  rw [vars, List.count_append, List.count_flatMap, hbody]
  exact congrArg (· + _) (Term.count_varsAll x r.head.args)

namespace Validation

/-! ## Lists of names -/

/-- The names with a property, each once, in the order of their characters. -/
structure Names (P : String → Prop) (xs : List String) : Prop where
  sorted : xs.Pairwise (· < ·)
  mem_iff : ∀ x, x ∈ xs ↔ P x

theorem nodup_eraseDups (xs : List String) : xs.eraseDups.Nodup := by
  -- on the length, since the rest of the list is filtered before it goes on
  induction hn : xs.length using Nat.strong_induction_on generalizing xs with
  | _ n ih =>
      cases xs with
      | nil => exact List.nodup_nil
      | cons x xs =>
          rw [List.eraseDups_cons, List.nodup_cons]
          have hlen : (xs.filter fun y => !y == x).length ≤ xs.length := List.length_filter_le _ _
          exact ⟨by simp, ih _ (by rw [← hn, List.length_cons]; omega) _ rfl⟩

theorem names_sortedNames (xs : List String) : Names (· ∈ xs) (sortedNames xs) where
  sorted := by
    have hle : (sortedNames xs).Pairwise fun a b => decide (a ≤ b) = true :=
      List.pairwise_mergeSort (fun a b c => by simpa using String.le_trans)
        (fun a b => by simpa using String.le_total a b) _
    have hne : (sortedNames xs).Nodup :=
      (List.mergeSort_perm _ _).nodup_iff.mpr (nodup_eraseDups xs)
    exact (hle.and hne).imp fun h => lt_of_le_of_ne (of_decide_eq_true h.1) h.2
  mem_iff x := by rw [sortedNames, List.mem_mergeSort, List.mem_eraseDups]

theorem Names.congr {P Q : String → Prop} {xs : List String} (h : Names P xs)
    (hPQ : ∀ x, P x ↔ Q x) :
    Names Q xs :=
  ⟨h.sorted, fun x => (h.mem_iff x).trans (hPQ x)⟩

theorem Names.eq_nil_iff {P : String → Prop} {xs : List String} (h : Names P xs) :
    xs = [] ↔ ∀ x, ¬ P x := by
  simp only [List.eq_nil_iff_forall_not_mem, h.mem_iff]

/-! ## The conditions -/

/-- Something that a rule should satisfy, and what may be said of a rule that does not. -/
structure Condition where
  Holds : Prop
  Refusal : String → Prop

/-- A variable of the head that no goal binds. -/
def Unbound (r : Rule) (x : String) : Prop :=
  0 < r.head.occurrences x ∧ ∀ g ∈ r.body, g.negated = false → g.occurrences x = 0

def hasGoals (r : Rule) : Condition where
  Holds := r.body ≠ []
  Refusal message := message = "Rule body cannot be empty"

def definesUser (r : Rule) : Condition where
  Holds := r.predicate ∉ Builtin.names
  Refusal message := message = "Rule head cannot redefine built-in predicate " ++ r.predicate

def bindsHead (r : Rule) : Condition where
  Holds := ∀ x, 0 < r.head.occurrences x → ∃ g ∈ r.body, g.negated = false ∧ 0 < g.occurrences x
  Refusal message := ∃ xs, Names (Unbound r) xs ∧
    message = "Unsafe rule: variables " ++ ", ".intercalate xs ++ " appear in head but not in body"

/-- A literal agrees with what is known of its predicate: built-in predicates take two arguments,
and others as many as the table says, if it says anything. -/
def agrees (table : Signatures) (predicate : String) (arity : Nat) : Condition where
  Holds := if predicate ∈ Builtin.names then arity = 2 else
    ∀ known, table.lookup predicate = some known → known = arity
  Refusal message :=
    let used := "Arity mismatch: " ++ predicate ++ "/" ++ toString arity
    if predicate ∈ Builtin.names then message = used ++ " (built-in is " ++ predicate ++ "/2)" else
      ∃ known, table.lookup predicate = some known ∧
        message = used ++ " (existing: " ++ predicate ++ "/" ++ toString known ++ ")"

/-- All conditions on a rule in their order; literals come from left to right. -/
def conditions (table : Signatures) (r : Rule) : List Condition :=
  [hasGoals r, definesUser r, bindsHead r, agrees table r.predicate r.head.arity] ++
    r.body.map fun g => agrees table g.predicate g.arity

/-- The message is said of the first condition that does not hold. -/
inductive FirstViolated : List Condition → String → Prop
  | here {c : Condition} {cs : List Condition} {message : String} (hc : ¬ c.Holds)
      (hrefusal : c.Refusal message) : FirstViolated (c :: cs) message
  | later {c : Condition} {cs : List Condition} {message : String} (hc : c.Holds)
      (h : FirstViolated cs message) : FirstViolated (c :: cs) message

/-! ## One check -/

/-- The error tells whether the condition holds. -/
structure Condition.TestedBy (c : Condition) (error : Option String) : Prop where
  holds_iff : error = none ↔ c.Holds
  refusal : ∀ message ∈ error, c.Refusal message

theorem hasGoals_testedBy (r : Rule) :
    (hasGoals r).TestedBy (if r.body.isEmpty then some "Rule body cannot be empty" else none) where
  holds_iff := by simp [hasGoals]
  refusal := by simp [hasGoals]

theorem definesUser_testedBy (r : Rule) :
    (definesUser r).TestedBy (if isBuiltin r.predicate then
      some ("Rule head cannot redefine built-in predicate " ++ r.predicate) else none) where
  holds_iff := by simp [definesUser, isBuiltin]
  refusal := by simp [definesUser]

theorem names_unboundVars (r : Rule) : Names (Unbound r) (unboundVars r) := by
  refine (names_sortedNames _).congr fun x => ?_
  have hpositive : x ∉ positiveVars r ↔ ∀ g ∈ r.body, g.negated = false → g.occurrences x = 0 := by
    simp only [mem_positiveVars, not_exists, not_and, Goal.vars,
      Term.mem_varsAll_iff_occurrencesAll, Nat.pos_iff_ne_zero, not_not]
    rfl
  rw [List.mem_filter, Fact.vars, Term.mem_varsAll_iff_occurrencesAll, Unbound, ← hpositive]
  simp [Fact.occurrences]

theorem bindsHead_testedBy (r : Rule) : (bindsHead r).TestedBy (safe r).error := by
  have hnames := names_unboundVars r
  have hnil : unboundVars r = [] ↔ (bindsHead r).Holds := by
    rw [hnames.eq_nil_iff]
    simp only [Unbound, bindsHead, not_and, not_forall, Nat.pos_iff_ne_zero, exists_prop]
  rw [safe]
  split
  · next h => exact ⟨by simp [Verdict.accepted, ← hnil, h], by simp [Verdict.accepted]⟩
  · next h =>
    refine ⟨by simpa [Verdict.rejected, ← hnil] using h, ?_⟩
    rintro _ ⟨⟩
    exact ⟨unboundVars r, hnames, rfl⟩

theorem agrees_testedBy (table : Signatures) (p : String) (n : Nat) :
    (agrees table p n).TestedBy (signature table p n).error := by
  have hbuiltin : isBuiltin p = true ↔ p ∈ Builtin.names := List.contains_iff_mem
  rw [signature]
  by_cases hp : p ∈ Builtin.names
  · rw [if_pos (hbuiltin.mpr hp)]
    split
    · next h =>
      obtain rfl : n = 2 := h
      exact ⟨by simp [agrees, hp, Verdict.accepted], by simp [Verdict.accepted]⟩
    · next h =>
      have hne : n ≠ 2 := h
      have hshown : "/" ++ (toString Builtin.arity ++ ")") = "/2)" := by decide
      refine ⟨by simpa [agrees, hp, Verdict.rejected] using hne, ?_⟩
      rintro _ ⟨⟩
      simp only [agrees, if_pos hp, String.append_assoc, hshown]
  · rw [if_neg fun h => hp (hbuiltin.mp h)]
    cases hlookup : table.lookup p with
    | none => exact ⟨by simp [agrees, hp, hlookup, Verdict.accepted], by simp [Verdict.accepted]⟩
    | some known =>
        dsimp only
        split
        · next h =>
            exact ⟨by simp [agrees, hp, hlookup, h, Verdict.accepted], by simp [Verdict.accepted]⟩
        · next h =>
          refine ⟨by simp [agrees, hp, hlookup, h, Verdict.rejected], ?_⟩
          rintro _ ⟨⟩
          simp [agrees, hp, hlookup, String.append_assoc]

/-! ## All checks in order -/

/-- The error tells whether all conditions hold, and which is the first one that does not. -/
structure TestedInOrder (cs : List Condition) (error : Option String) : Prop where
  holds_iff : error = none ↔ ∀ c ∈ cs, c.Holds
  first : ∀ message ∈ error, FirstViolated cs message

theorem TestedInOrder.nil : TestedInOrder [] none := ⟨by simp, by simp⟩

theorem TestedInOrder.cons {c : Condition} {cs : List Condition} {error errors : Option String}
    (hc : c.TestedBy error) (hcs : TestedInOrder cs errors) :
    TestedInOrder (c :: cs) (error.or errors) := by
  cases error with
  | none =>
      have hholds : c.Holds := hc.holds_iff.mp rfl
      refine ⟨?_, fun message hmessage => .later hholds (hcs.first message hmessage)⟩
      rw [Option.none_or, hcs.holds_iff, List.forall_mem_cons, and_iff_right hholds]
  | some message =>
      have hviolated : ¬ c.Holds := fun hholds => by simpa using hc.holds_iff.mpr hholds
      refine ⟨?_, ?_⟩
      · simp [hviolated]
      · rintro _ ⟨⟩
        exact .here hviolated (hc.refusal message rfl)

theorem testedInOrder_goals (table : Signatures) (gs : List Goal) :
    TestedInOrder (gs.map fun g => agrees table g.predicate g.arity)
      (gs.findSome? fun g => (signature table g.predicate g.arity).error) := by
  induction gs with
  | nil => exact .nil
  | cons g gs ih =>
      have hcons := TestedInOrder.cons (agrees_testedBy table g.predicate g.arity) ih
      rw [List.findSome?_cons]
      cases h : (signature table g.predicate g.arity).error with
      | none => simpa [h] using hcons
      | some message => simpa [h] using hcons

end Validation

namespace Verdict

theorem error_combine (vs : List Verdict) : (combine vs).error = vs.findSome? (·.error) := by
  have hfind : vs.findSome? (·.error) = (vs.find? (!·.isValid)).bind (·.error) := by
    induction vs with
    | nil => rfl
    | cons v vs ih =>
        rw [List.findSome?_cons, List.find?_cons, isValid]
        cases herror : v.error with
        | none => simpa using ih
        | some message => simp [herror]
  rw [combine, hfind]
  cases vs.find? (!·.isValid) with
  | some v => rfl
  | none => cases vs.filterMap (·.warning) <;> rfl

theorem warning_combine_of_forall {vs : List Verdict} (h : ∀ v ∈ vs, v.warning = none) :
    (combine vs).warning = none := by
  rw [combine]
  split
  · next v hv => exact h v (List.mem_of_find?_eq_some hv)
  · have hnil : vs.filterMap (·.warning) = [] := List.filterMap_eq_nil_iff.mpr h
    rw [hnil]
    rfl

end Verdict

namespace Validation

/-! ## The verdict on a rule -/

theorem error_wellFormed (r : Rule) :
    (wellFormed r).error = (if r.body.isEmpty then some "Rule body cannot be empty" else none).or
      (if isBuiltin r.predicate then
        some ("Rule head cannot redefine built-in predicate " ++ r.predicate) else none) := by
  rw [wellFormed]
  split
  · rfl
  · split <;> rfl

theorem error_singletonWarning (r : Rule) : (singletonWarning r).error = none := by
  rw [singletonWarning]
  split <;> rfl

theorem error_structural (warn : Bool) (r : Rule) :
    (structural warn r).error = (wellFormed r).error.or (safe r).error := by
  rw [structural, Verdict.isValid, Verdict.isValid]
  cases hform : (wellFormed r).error with
  | some message => simp [hform]
  | none =>
      cases hsafe : (safe r).error with
      | some message => simp [hsafe]
      | none => cases warn <;> simp [error_singletonWarning, Verdict.accepted]

theorem testedInOrder_rule (table : Signatures) (warn : Bool) (r : Rule) :
    TestedInOrder (conditions table r) (rule (some table) warn r).error := by
  have hgoals := testedInOrder_goals table r.body
  have hall :=
    (hgoals.cons (agrees_testedBy table r.predicate r.head.arity)).cons (bindsHead_testedBy r)
    |>.cons (definesUser_testedBy r) |>.cons (hasGoals_testedBy r)
  have herror : (rule (some table) warn r).error =
      (structural warn r).error.or (ruleSignatures table r).error := by
    rw [rule, ruleChecks, Verdict.error_combine]
    cases hform : (structural warn r).error <;> cases hsig : (ruleSignatures table r).error <;>
      simp [hform, hsig]
  have hsignatures :
      (ruleSignatures table r).error = (signature table r.predicate r.head.arity).error.or
      (r.body.findSome? fun g => (signature table g.predicate g.arity).error) := by
    rw [ruleSignatures, Verdict.error_combine, List.findSome?_cons, List.findSome?_map]
    cases (signature table r.predicate r.head.arity).error <;> rfl
  rw [herror, error_structural, error_wellFormed, hsignatures]
  simp only [Option.or_assoc]
  exact hall

/-- The warning of variables that occur only once. -/
theorem warning_singletonWarning (r : Rule) :
    ((singletonWarning r).warning.isSome = true ↔ ∃ x, r.occurrences x = 1) ∧
      ∀ w ∈ (singletonWarning r).warning, ∃ xs, Names (fun x => r.occurrences x = 1) xs ∧
        w = "Singleton variables: " ++ ", ".intercalate xs ++ " (appear only once)" := by
  have hnames : Names (fun x => r.occurrences x = 1) (singletons r) := by
    refine (names_sortedNames _).congr fun x => ?_
    rw [List.mem_filter, beq_iff_eq, Rule.count_vars, and_iff_right_iff_imp]
    intro hone
    rw [← List.count_pos_iff, Rule.count_vars, hone]
    exact Nat.one_pos
  have hnil : singletons r ≠ [] ↔ ∃ x, r.occurrences x = 1 := by
    rw [Ne, hnames.eq_nil_iff, not_forall_not]
  rw [singletonWarning, ← hnil]
  split
  · next h => simp [Verdict.accepted, h]
  · next h =>
    refine ⟨by simpa using h, ?_⟩
    rintro _ ⟨⟩
    exact ⟨singletons r, hnames, rfl⟩

theorem warning_signature (table : Signatures) (p : String) (n : Nat) :
    (signature table p n).warning = none := by
  rw [signature]
  split
  · split <;> rfl
  · split
    · split <;> rfl
    · rfl

theorem warning_ruleSignatures (table : Signatures) (r : Rule) :
    (ruleSignatures table r).warning = none := by
  refine Verdict.warning_combine_of_forall (List.forall_mem_cons.mpr ⟨warning_signature _ _ _, ?_⟩)
  rintro _ hmem
  obtain ⟨g, _, rfl⟩ := List.mem_map.mp hmem
  exact warning_signature _ _ _

theorem warning_structural (warn : Bool) (r : Rule) :
    (structural warn r).warning =
      if (structural warn r).isValid && warn then (singletonWarning r).warning else none := by
  have hform : (wellFormed r).warning = none := by
    rw [wellFormed]
    split
    · rfl
    · split <;> rfl
  have hsafe : (safe r).warning = none := by
    rw [safe]
    split <;> rfl
  have hsingle : (singletonWarning r).isValid = true := by
    rw [Verdict.isValid, error_singletonWarning]
    rfl
  rw [structural]
  split
  · next h => simp_all
  · split
    · next h => simp_all
    · cases warn with
      | false => rfl
      | true => simp [hsingle]

theorem warning_rule (table : Signatures) (warn : Bool) (r : Rule) :
    (rule (some table) warn r).warning =
      if (rule (some table) warn r).isValid && warn then (singletonWarning r).warning
      else none := by
  have hvalid : (rule (some table) warn r).isValid =
      ((structural warn r).isValid && (ruleSignatures table r).isValid) := by
    rw [rule, ruleChecks, Verdict.isValid_combine]
    simp
  have hform := warning_structural warn r
  have hsignatures := warning_ruleSignatures table r
  rw [hvalid, rule, ruleChecks, Verdict.combine]
  cases hs : (structural warn r).isValid with
  | false => simpa [hs] using hform
  | true =>
      cases hg : (ruleSignatures table r).isValid with
      | false => simpa [hs, hg] using hsignatures
      | true =>
          rw [hs] at hform
          simp only [Bool.true_and] at hform ⊢
          rw [← hform]
          cases hw : (structural warn r).warning with
          | none => simp [hs, hg, hw, hsignatures, Verdict.accepted]
          | some w => simp [hs, hg, hw, hsignatures]

/-- A rule passes exactly if it satisfies all conditions. Otherwise the error is the message of the
first violated one and nothing else is said. A rule that passes is warned of if this is wanted and
some variable occurs once in it, and then all these variables are named in order. -/
theorem rule_decides_conditions (table : Signatures) (warn : Bool) (r : Rule) :
    let v := rule (some table) warn r
    (v.isValid = true ↔ ∀ c ∈ conditions table r, c.Holds) ∧
    (v.isValid = false →
      (∃ message, v.error = some message ∧ FirstViolated (conditions table r) message) ∧
        v.warning = none) ∧
    (v.isValid = true →
      (v.warning.isSome = true ↔ warn = true ∧ ∃ x, r.occurrences x = 1) ∧
        ∀ w ∈ v.warning, ∃ xs, Names (fun x => r.occurrences x = 1) xs ∧
          w = "Singleton variables: " ++ ", ".intercalate xs ++ " (appear only once)") := by
  intro v
  have htested : TestedInOrder (conditions table r) v.error := testedInOrder_rule table warn r
  have hwarning : v.warning = if v.isValid && warn then (singletonWarning r).warning else none :=
    warning_rule table warn r
  refine ⟨?_, fun hinvalid => ⟨?_, ?_⟩, fun hvalid => ?_⟩
  · rw [← htested.holds_iff, Verdict.isValid, Option.isNone_iff_eq_none]
  · obtain ⟨message, hmessage⟩ : ∃ message, v.error = some message :=
      Option.isSome_iff_exists.mp (by simpa [Verdict.isValid] using hinvalid)
    exact ⟨message, hmessage, htested.first message hmessage⟩
  · simpa [hinvalid] using hwarning
  · rw [hwarning, hvalid]
    cases warn with
    | false => simp
    | true => simpa using warning_singletonWarning r

-- The safety of the head comes before the arity of the first goal.
example : rule (some [("q", 2)]) true ⟨⟨"p", [.compound "f" [.var "Y", .var "X"]]⟩,
    [⟨"q", [.var "Z"], false⟩, ⟨"r", [.var "X"], true⟩]⟩ =
      .rejected "Unsafe rule: variables X, Y appear in head but not in body" := by
  cbv

end Validation

end Clausal
