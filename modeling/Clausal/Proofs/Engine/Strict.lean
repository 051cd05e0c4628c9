import Clausal.Proofs.Engine.Changes
import Clausal.Proofs.KnowledgeBase
import Clausal.Proofs.Search.Recursion
import Clausal.Proofs.Term.Instance
import Clausal.Proofs.Validation

/-!
# The store of a strict engine

A strict engine refuses clauses that fail validation. Its store then satisfies at every moment what
the checks of single clauses are meant to ensure for all of them together: facts are ground, rules
are safe, and each predicate has one arity, the one in the table of signatures. Signatures outlive
the clauses that they were recorded for, and starting up only touches those of built-in predicates.
-/

namespace Clausal

/-- A fact as it should be. -/
structure Fact.IsProper (f : Fact) : Prop where
  ground : f.isGround = true
  user : isBuiltin f.predicate = false

/-- A rule as it should be. -/
structure Rule.IsProper (r : Rule) : Prop where
  body : r.body ≠ []
  user : isBuiltin r.predicate = false
  safe : ∀ x ∈ r.head.vars, ∃ g ∈ r.body, g.negated = false ∧ x ∈ g.vars
  arities : ∀ g ∈ r.body, isBuiltin g.predicate = true → g.arity = Builtin.arity

/-- A store as it should be: all clauses are proper, and all heads of a predicate have the arity in
the table of signatures. -/
structure KnowledgeBase.IsProper (kb : KnowledgeBase) : Prop where
  facts : ∀ f ∈ kb.facts.all, f.IsProper
  rules : ∀ r ∈ kb.rules.all, r.IsProper
  factArity : ∀ f ∈ kb.facts.all, kb.arityOf? f.predicate = some f.arity
  ruleArity : ∀ r ∈ kb.rules.all, kb.arityOf? r.predicate = some r.head.arity

theorem Fact.isGround_of_vars {f : Fact} (h : f.vars = []) : f.isGround = true := by
  rw [isGround, Term.isGroundAll_eq, List.all_eq_true]
  intro t ht
  refine Term.isGround_iff.mpr fun x hx => ?_
  have hmem : x ∈ f.vars := Term.mem_varsAll.mpr ⟨t, ht, hx⟩
  simp [h] at hmem

namespace KnowledgeBase.IsProper

variable {kb : KnowledgeBase}

theorem empty : KnowledgeBase.empty.IsProper := by
  constructor <;> simp [KnowledgeBase.empty, Groups.all]

/-- A literal agrees with the table after `n` is recorded for `p`. -/
def Agrees (kb : KnowledgeBase) (p : String) (n : Nat) (q : String) (m : Nat) : Prop :=
  if q = p then m = n else kb.arityOf? q = some m

theorem agrees_of_known {p q : String} {n m : Nat} (hknown : ∀ k, kb.arityOf? p = some k → k = n)
    (h : kb.arityOf? q = some m) : Agrees kb p n q m := by
  rw [Agrees]
  split
  · next hqp =>
    subst hqp
    exact hknown m h
  · exact h

theorem agrees_of_user {p q : String} {n m : Nat} (hq : isBuiltin q = false)
    (hp : isBuiltin p = true) (h : kb.arityOf? q = some m) : Agrees kb p n q m := by
  have hqp : q ≠ p := by
    rintro rfl
    simp [hq] at hp
  rw [Agrees, if_neg hqp]
  exact h

theorem register {p : String} {n : Nat}
    (hfacts : ∀ f ∈ kb.facts.all, f.IsProper ∧ Agrees kb p n f.predicate f.arity)
    (hrules : ∀ r ∈ kb.rules.all, r.IsProper ∧ Agrees kb p n r.predicate r.head.arity) :
    (kb.register p n).IsProper := by
  have harity : ∀ {q m}, Agrees kb p n q m → (kb.register p n).arityOf? q = some m := by
    intro q m h
    rw [arityOf?_register]
    rw [Agrees] at h
    split at h
    · next hqp => rw [if_pos hqp, h]
    · next hqp => rw [if_neg hqp, h]
  exact ⟨fun f hf => (hfacts f hf).1, fun r hr => (hrules r hr).1,
    fun f hf => harity (hfacts f hf).2, fun r hr => harity (hrules r hr).2⟩

variable (h : kb.IsProper)

include h

theorem removeFact (f : Fact) : (kb.removeFact f).IsProper :=
  ⟨fun g hg => h.facts g (Groups.mem_all_of_mem_filterAt hg), h.rules,
    fun g hg => h.factArity g (Groups.mem_all_of_mem_filterAt hg), h.ruleArity⟩

theorem addFact {f : Fact} {v : Verdict} (hv : Validation.fact (some kb.signatures) f = .ok v)
    (hvalid : v.isValid = true) : ((kb.addFact f).register f.predicate f.arity).IsProper := by
  obtain ⟨huser, hvars, hknown⟩ := Validation.isValid_of_fact hv hvalid
  rw [Validation.isValid_signature, huser, if_neg Bool.false_ne_true] at hknown
  refine register (fun g hg => ?_) fun r hr => ?_
  · rcases Groups.mem_all_add.mp hg with hg | rfl
    · exact ⟨h.facts g hg, agrees_of_known hknown (h.factArity g hg)⟩
    · exact ⟨⟨Fact.isGround_of_vars hvars, huser⟩, by simp [Agrees]⟩
  · exact ⟨h.rules r hr, agrees_of_known hknown (h.ruleArity r hr)⟩

theorem addRule {r : Rule} {warn : Bool}
    (hvalid : (Validation.rule (some kb.signatures) warn r).isValid = true) :
    ((kb.addRule r).register r.predicate r.head.arity).IsProper := by
  obtain ⟨hform, hsafe, hsignatures⟩ := Validation.isValid_rule.mp hvalid
  obtain ⟨hbody, huser⟩ := Validation.isValid_wellFormed.mp hform
  obtain ⟨hknown, hgoals⟩ := Validation.isValid_ruleSignatures.mp hsignatures
  rw [Validation.isValid_signature, huser, if_neg Bool.false_ne_true] at hknown
  have harities : ∀ g ∈ r.body, isBuiltin g.predicate = true → g.arity = Builtin.arity := by
    intro g hg hbuiltin
    simpa [Validation.isValid_signature, hbuiltin] using hgoals g hg
  refine register (fun f hf => ?_) fun r' hr' => ?_
  · exact ⟨h.facts f hf, agrees_of_known hknown (h.factArity f hf)⟩
  · rcases Groups.mem_all_add.mp hr' with hr' | rfl
    · exact ⟨h.rules r' hr', agrees_of_known hknown (h.ruleArity r' hr')⟩
    · exact ⟨⟨hbody, huser, Validation.isValid_safe.mp hsafe, harities⟩, by simp [Agrees]⟩

/-- No clause is for a built-in predicate, so their signatures concern none. -/
theorem registerBuiltins {names : List String} (hnames : ∀ name ∈ names, isBuiltin name = true) :
    (names.foldl (fun kb name => kb.register name Builtin.arity) kb).IsProper := by
  induction names generalizing kb with
  | nil => exact h
  | cons name names ih =>
      refine ih (register (fun f hf => ⟨h.facts f hf, ?_⟩) fun r hr => ⟨h.rules r hr, ?_⟩)
        fun other hother => hnames other (List.mem_cons_of_mem name hother)
      · exact agrees_of_user (h.facts f hf).user (hnames name List.mem_cons_self) (h.factArity f hf)
      · exact agrees_of_user (h.rules r hr).user (hnames name List.mem_cons_self) (h.ruleArity r hr)

/-- No predicate is stored with two arities. -/
theorem exists_arity (p : String) :
    ∃ n, (∀ f ∈ kb.facts.all, f.predicate = p → f.arity = n) ∧
      ∀ r ∈ kb.rules.all, r.predicate = p → r.head.arity = n := by
  refine ⟨(kb.arityOf? p).getD 0, fun f hf hp => ?_, fun r hr hp => ?_⟩
  · rw [← hp, h.factArity f hf, Option.getD_some]
  · rw [← hp, h.ruleArity r hr, Option.getD_some]

end KnowledgeBase.IsProper

namespace Engine

/-- Where only valid clauses are admitted, every change keeps the store proper. -/
theorem Change.isProper {s : Settings} (hs : s.validation.strict.isTrue = true)
    {kb kb' : KnowledgeBase} (h : Change s kb kb') (hkb : kb.IsProper) : kb'.IsProper := by
  cases h with
  | fact hv hadmits => exact hkb.addFact hv (hadmits hs)
  | rule hadmits => exact hkb.addRule (hadmits hs)
  | removal f => exact hkb.removeFact f
  | startUp => exact hkb.registerBuiltins (by decide)
  | clearing => exact .empty

theorem Becomes.isProper {e e' : Engine} (h : Becomes e e')
    (hs : e.settings.validation.strict.isTrue = true) (he : e.kb.IsProper) : e'.kb.IsProper := by
  have hchanges := h.changes
  generalize e'.kb = kb at hchanges ⊢
  induction hchanges with
  | refl => exact he
  | tail _ hchange ih => exact hchange.isProper hs ih

/-- At every moment of its life the store of a strict engine is proper, and no predicate is stored
with two arities. -/
theorem isProper_calls {s : Settings} (hs : s.validation.strict.isTrue = true) (cs : List Call) :
    ((ofSettings s).calls cs).kb.IsProper ∧
      ∀ p, ∃ n, (∀ f ∈ ((ofSettings s).calls cs).kb.facts.all, f.predicate = p → f.arity = n) ∧
        ∀ r ∈ ((ofSettings s).calls cs).kb.rules.all, r.predicate = p → r.head.arity = n := by
  have hproper : ((ofSettings s).calls cs).kb.IsProper :=
    (becomes_calls (ofSettings s) cs).isProper hs .empty
  exact ⟨hproper, hproper.exists_arity⟩

def strictSettings : Settings := { validation := { strict := .bool true } }

/-- Calls of which half are refused: for a second arity, a variable in a fact, a variable
that only a negated goal has, and a built-in head. The arity of `edge` is remembered when its
facts are gone. -/
def troubledCalls : List Call :=
  [.startUp,
    .addFact ⟨"edge", [.atom "a", .atom "b"]⟩,
    .addFact ⟨"edge", [.atom "a"]⟩,
    .removeFact ⟨"edge", [.atom "a", .atom "b"]⟩,
    .addFact ⟨"edge", [.atom "b"]⟩,
    .addFact ⟨"edge", [.atom "c", .var "X"]⟩,
    .addFact ⟨"edge", [.atom "c", .int 7]⟩,
    .addRule ⟨⟨"far", [.var "X"]⟩, [⟨"edge", [.atom "c", .var "Y"], false⟩,
      ⟨"edge", [.var "X", .var "Y"], true⟩]⟩,
    .addRule ⟨⟨"far", [.var "X"]⟩, [⟨"edge", [.var "X", .var "Y"], false⟩,
      ⟨"<", [.var "Y", .int 9], false⟩]⟩,
    .addRule ⟨⟨"is", [.var "X", .var "X"]⟩, [⟨"far", [.var "X"], false⟩]⟩,
    .query [⟨"far", [.var "Z"], false⟩]]

theorem isProper_calls_troubled :
    let kb := ((ofSettings strictSettings).calls troubledCalls).kb
    kb.factsCount = 1 ∧ kb.rulesCount = 1 ∧ kb.arityOf? "edge" = some 2 ∧ kb.IsProper ∧
      ∃ n, (∀ f ∈ kb.facts.all, f.predicate = "edge" → f.arity = n) ∧
        ∀ r ∈ kb.rules.all, r.predicate = "edge" → r.head.arity = n := by
  intro kb
  have hcounts : kb.factsCount = 1 ∧ kb.rulesCount = 1 ∧ kb.arityOf? "edge" = some 2 := by
    unfold kb calls call Call.action Engine.query runQuery Evaluator.query Evaluator.solve
      Evaluator.search
    rw [Search.search_eq_boundedSearch]
    decide +kernel
  obtain ⟨hproper, harity⟩ := isProper_calls (s := strictSettings) rfl troubledCalls
  exact ⟨hcounts.1, hcounts.2.1, hcounts.2.2, hproper, harity "edge"⟩

end Engine

end Clausal
