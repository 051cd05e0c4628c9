import Clausal.Proofs.Engine.Atomic
import Clausal.Proofs.Engine.Frame
import Clausal.Proofs.KnowledgeBase.History
import Clausal.Proofs.Search.Lookup

/-!
# Asserted facts

A ground fact that was read from a text and stored is found by the same text as a query, whatever
rules there are, and is gone after the same text is retracted, together with every fact that is
close to it. Two things can stand in the way. A fact with an infinite number is not close to itself,
so it is not found and stays. And a stored fact without a text, which came as a value, is a fault of
every query that meets it.
-/

namespace Clausal

theorem Term.close_refl {t : Term} (h : t.isFinite = true) : t.close t = true := by
  induction t with
  | float x => exact closeFloats_self h
  | compound f args ih =>
      have hall : ∀ as : List Term, (∀ a ∈ as, a.close a = true) → closeAll as as = true := by
        intro as has
        induction as with
        | nil => rfl
        | cons a as ihas =>
            rw [closeAll, has a List.mem_cons_self,
              ihas fun b hb => has b (List.mem_cons_of_mem _ hb)]
            rfl
      rw [close, beq_self_eq_true,
        hall args fun a ha => ih a ha (hereditary_isFinite f args h a ha)]
      rfl
  | _ => simp [close]

theorem Fact.close_refl {f : Fact} (h : ∀ a ∈ f.args, a.isFinite = true) : f.close f = true := by
  have hargs : (Term.compound "" f.args).close (.compound "" f.args) = true := by
    refine Term.close_refl ?_
    rw [Term.isFinite, Term.isFiniteAll_eq, List.all_eq_true]
    exact h
  rw [Term.close, beq_self_eq_true, Bool.true_and] at hargs
  rw [Fact.close, beq_self_eq_true, hargs]
  rfl

/-! ## The text of a fact as a query -/

open Grammar in
/-- What is read as a fact is read as a query for this fact, even if its predicate is `not`. -/
theorem Goal.parseQuery_of_parse {text : String} {f : Fact} (h : Fact.parse text = .ok f) :
    Goal.parseQuery text = .ok [.ofFact f false] := by
  cases htext : tokenize text with
  | error e => simp [Fact.parse, htext, bind, Except.bind] at h
  | ok ts =>
      have hts := proper_of_tokenize htext
      have hreads := Fact.readsAll_parse htext hts
      rw [h] at hreads
      obtain ⟨⟨head, period⟩, rfl, hvalue⟩ := hreads
      -- A goal may start with a negation, but the tokens of a fact do not negate anything.
      have htokens : goalTokens none (.ofFactor head.toFactor) = head.tokens := by
        rw [goalTokens_ofFactor, head.tokens_toFactor]
        rfl
      refine parseQuery_of_derives htext hts ?_
      let goal : GoalTree :=
        ⟨none, .ofFactor head.toFactor, by rw [htokens]; exact head.negates_tokens⟩
      refine ⟨⟨⟨goal, []⟩, period⟩, ?_, ?_⟩
      · simp [Start.query, Start.fact, BodyTree.tokens, BodyTree.moreTokens, GoalTree.tokens,
          goal, htokens]
      · have hgoal : goal.value = some (.ofFact f false) :=
          StatementTree.value_ofFactor (head.value_toFactor hvalue) false
        simp [Start.query, BodyTree.value, hgoal]

/-! ## Stored and removed -/

namespace Groups

variable {α : Type} {key : α → String} {g : Groups α} {names : List String} {items : List α}

/-- Adding an item and filtering its group filters what was there, if the filter drops the item. -/
theorem Lists.add_filterAt (h : g.Lists key names items) {a : α} {keep : α → Bool}
    (ha : keep a = false) (hkeep : ∀ b, key b ≠ key a → keep b = true) :
    (((g.add (key a) a).filterAt (key a) keep).all = g.all.filter keep) ∧
      ∀ n, ((g.add (key a) a).filterAt (key a) keep).get n = (g.get n).filter keep := by
  have hitems : ((items ++ [a]).filter fun b => key b != key a || keep b) = items.filter keep := by
    rw [List.filter_append, List.filter_cons_of_neg (by simp [ha]), List.filter_nil,
      List.append_nil]
    refine List.filter_congr fun b _ => ?_
    by_cases hb : key b = key a
    · simp [hb]
    · simp [hkeep b hb]
  have hlists := (h.add a).filterAt (key a) keep
  rw [hitems] at hlists
  have hgroup : ∀ n,
      (items.filter keep).filter (key · == n) = (items.filter (key · == n)).filter keep := by
    intro n
    rw [List.filter_filter, List.filter_filter]
    exact List.filter_congr fun b _ => Bool.and_comm _ _
  refine ⟨?_, fun n => ?_⟩
  · rw [hlists.all, h.all, List.filter_flatMap, List.flatMap_append]
    simp only [hgroup]
    split
    · simp
    · next hnew =>
      have hempty : items.filter (key · == key a) = [] :=
        List.filter_eq_nil_iff.mpr fun b hb heq => hnew (beq_iff_eq.mp heq ▸ h.named b hb)
      simp only [List.flatMap_cons, List.flatMap_nil, hempty, List.filter_nil, List.append_nil]
  · rw [hlists.get, h.get, hgroup]

end Groups

namespace Engine

open KnowledgeBase (ofLog Update)

/-- A change of the knowledge base is a few updates. -/
theorem Change.exists_log {s : Settings} {kb kb' : KnowledgeBase} (h : Change s kb kb') :
    ∃ log : List Update, kb' = log.foldl KnowledgeBase.update kb := by
  cases h with
  | @fact f v hv hadmits => exact ⟨[.addFact f, .register f.predicate f.arity], rfl⟩
  | @rule r warn hadmits => exact ⟨[.addRule r, .register r.predicate r.head.arity], rfl⟩
  | removal f => exact ⟨[.removeFact f], rfl⟩
  | startUp =>
      refine ⟨Builtin.names.map (.register · Builtin.arity), ?_⟩
      rw [List.foldl_map]
      rfl
  | clearing => exact ⟨[.clear], rfl⟩

/-- The knowledge base of an engine in use has a log. -/
theorem exists_log_calls (s : Settings) (cs : List Call) :
    ∃ log, ((ofSettings s).calls cs).kb = ofLog log := by
  have hchanges := (becomes_calls (ofSettings s) cs).changes
  generalize ((ofSettings s).calls cs).kb = kb at hchanges
  induction hchanges with
  | refl => exact ⟨[], rfl⟩
  | tail _ hchange ih =>
      obtain ⟨log, rfl⟩ := ih
      obtain ⟨more, rfl⟩ := hchange.exists_log
      exact ⟨log ++ more, List.foldl_append.symm⟩

/-! ## Calls that return -/

theorem Ends.ok {α : Type} {a : Action α} {e : Engine} {Q : α → Engine → Prop}
    (h : Ends a e Q fun _ _ => False) : ∃ v e', a.run.run e = (.ok v, e') ∧ Q v e' := by
  rw [Ends] at h
  split at h
  · next v e' hrun => exact ⟨v, e', hrun, h⟩
  · exact h.elim

/-- An engine that is not strict accepts every clause. -/
theorem ends_check_of_lenient {e : Engine} (hstrict : e.settings.validation.strict.isTrue = false)
    (v : Verdict) (shown : Except Fault String) (clause : String) :
    Ends (check v shown clause) e (fun _ e' => ∃ log, e' = { e with log }) fun _ _ => False := by
  have hrest : ∀ log, Ends (refuse v shown clause) { e with log }
      (fun _ e' => ∃ log, e' = { e with log }) fun _ _ => False := by
    intro log
    rw [refuse]
    split
    · refine ends_bind (ends_get ?_)
      rw [if_neg (by simp [hstrict])]
      exact ends_modify ⟨_, rfl⟩
    · exact ends_pure ⟨log, rfl⟩
  rw [check]
  split
  · exact ends_bind (ends_modify (hrest _))
  · exact hrest e.log

theorem exists_validation {f : Fact} (htext : f.hasText = true) (table : Validation.Signatures) :
    ∃ v, Validation.fact (some table) f = .ok v := by
  have hground : ∃ v, Validation.groundFact f = .ok v := by
    rw [Validation.groundFact]
    split
    · exact ⟨_, rfl⟩
    · split
      · exact ⟨_, rfl⟩
      · exact ⟨_, rfl⟩
  obtain ⟨v, hv⟩ := hground
  rw [Validation.fact, hv]
  exact ⟨_, rfl⟩

/-- An engine that is not strict stores every fact with a text. -/
theorem ends_addFact_of_lenient {e : Engine} (hstrict : e.settings.validation.strict.isTrue = false)
    {f : Fact} (htext : f.hasText = true) :
    Ends (addFact f) e
      (fun _ e' => e'.settings = e.settings ∧
        e'.evaluator = e.evaluator.withKb ((e.kb.addFact f).register f.predicate f.arity))
      fun _ _ => False := by
  obtain ⟨v, hv⟩ := exists_validation htext e.kb.signatures
  refine ends_bind (ends_get (ends_bind (ends_written hv ?_)))
  refine ends_bind ((ends_check_of_lenient hstrict v f.write f.text).mono ?_ fun _ _ h => h)
  rintro _ _ ⟨log, rfl⟩
  refine ends_bind (ends_modify (ends_bind (ends_register fun log' => ends_bind ?_)))
  exact ends_written (if_pos htext) (ends_modify ⟨rfl, rfl⟩)

theorem ends_assertFact_of_lenient {e : Engine}
    (hstrict : e.settings.validation.strict.isTrue = false) {text : String} {f : Fact}
    (hparse : Fact.parse text = .ok f) :
    Ends (assertFact text) e
      (fun _ e' =>
      e'.evaluator = e.evaluator.withKb ((e.kb.addFact f).register f.predicate f.arity))
      fun _ _ => False := by
  refine ends_bind (ends_written hparse ?_)
  exact (ends_addFact_of_lenient hstrict (Fact.hasText_of_parse hparse)).mono (fun _ _ h => h.2)
    fun _ _ h => h

theorem isLookup_ofFact {text : String} {f : Fact} (hparse : Fact.parse text = .ok f)
    (hground : f.isGround = true) (huser : isBuiltin f.predicate = false) :
    (Goal.ofFact f false).IsLookup := by
  have htext := Fact.hasText_of_parse hparse
  rw [Fact.hasText, Term.hasTextAll_eq, List.all_eq_true] at htext
  rw [Fact.isGround, Term.isGroundAll_eq, List.all_eq_true] at hground
  exact ⟨rfl, huser, fun a ha => ⟨hground a ha, htext a ha⟩⟩

/-- A stored fact with finite numbers is found by its text. -/
theorem ends_ask_of_mem {e : Engine} (hlimit : e.limit.isExceededBy 1 = false)
    {text : String} {f : Fact} (hparse : Fact.parse text = .ok f) (hground : f.isGround = true)
    (huser : isBuiltin f.predicate = false) (hfin : ∀ a ∈ f.args, a.isFinite = true)
    (hmem : f ∈ e.kb.factsFor f.predicate)
    (htexts : ∀ g ∈ e.kb.factsFor f.predicate, g.arity = f.arity → g.hasText = true) :
    Ends (ask text) e (fun v e' => v = true ∧ e'.kb = e.kb) fun _ _ => False := by
  obtain ⟨b, q, hsearch⟩ :=
    Search.search_lookup (t := ⟨e.kb, e.evaluator.options, some 1⟩) rfl hlimit
    (isLookup_ofFact hparse hground huser) hfin htexts hmem rfl e.evaluator.options.strategy {}
  refine ends_bind (ends_modify (ends_bind (ends_written (Goal.parseQuery_of_parse hparse) ?_)))
  rw [Ends, run_evaluate]
  dsimp only
  rw [Search.ask_of_search e.evaluator _ hsearch]
  exact ⟨rfl, rfl⟩

theorem ends_retractFact {e : Engine} {text : String} {f : Fact}
    (hparse : Fact.parse text = .ok f) :
    Ends (retractFact text) e (fun n e' => n = e.kb.countFact f ∧ e'.kb = e.kb.removeFact f)
      fun _ _ => False := by
  refine ends_bind
    (ends_written hparse (ends_bind (ends_get (ends_bind (ends_modify (ends_bind ?_))))))
  exact ends_written (if_pos (Fact.hasText_of_parse hparse)) (ends_bind (ends_modify ⟨rfl, rfl⟩))

/-- A fact with finite numbers that is read from a text and stored is found by the text as a query,
and retracting the text leaves the earlier facts that are not close to it. -/
theorem ask_retract_of_assert {s : Settings} (hstrict : s.validation.strict.isTrue = false)
    (hlimit : s.query.options.limit.isExceededBy 1 = false) (cs : List Call)
    {text : String} {f : Fact} (hparse : Fact.parse text = .ok f) (hground : f.isGround = true)
    (huser : isBuiltin f.predicate = false) (hfinite : Term.isFiniteAll f.args = true)
    (htexts : ∀ g ∈ ((ofSettings s).calls cs).kb.factsFor f.predicate,
      g.arity = f.arity → g.hasText = true) :
    let e := (ofSettings s).calls cs
    ∃ e₁ e₂ e₃ n,
      (assertFact text).run.run e = (.ok (), e₁) ∧
      (ask text).run.run e₁ = (.ok true, e₂) ∧
      (retractFact text).run.run e₂ = (.ok n, e₃) ∧ 1 ≤ n ∧
      e₃.kb.facts.all = e.kb.facts.all.filter (fun g => !g.close f) ∧
      ∀ p, e₃.kb.factsFor p = (e.kb.factsFor p).filter fun g => !g.close f := by
  intro e
  have hbecomes := becomes_calls (ofSettings s) cs
  have hfin : ∀ a ∈ f.args, a.isFinite = true := by
    rwa [Term.isFiniteAll_eq, List.all_eq_true] at hfinite
  have hclose : f.close f = true := Fact.close_refl hfin
  obtain ⟨_, e₁, hassert, hevaluator⟩ :=
    (ends_assertFact_of_lenient (e := e) (hbecomes.settings ▸ hstrict) hparse).ok
  have hkb₁ : e₁.kb = (e.kb.addFact f).register f.predicate f.arity :=
    congrArg Evaluator.kb hevaluator
  have hlimit₁ : e₁.limit = s.query.options.limit :=
    (congrArg (·.options.limit) hevaluator).trans (congrArg Search.Options.limit hbecomes.options)
  -- The new fact is the last one of its predicate.
  have hfacts : e₁.kb.factsFor f.predicate = e.kb.factsFor f.predicate ++ [f] := by
    rw [hkb₁]
    refine (Groups.get_add e.kb.facts f.predicate f.predicate f).trans ?_
    rw [if_pos rfl]
    rfl
  have htexts₁ : ∀ g ∈ e₁.kb.factsFor f.predicate, g.arity = f.arity → g.hasText = true := by
    intro g hg harity
    rcases List.mem_append.mp (hfacts ▸ hg) with hold | hnew
    · exact htexts g hold harity
    · obtain rfl := List.mem_singleton.mp hnew
      exact Fact.hasText_of_parse hparse
  have hmem : f ∈ e₁.kb.factsFor f.predicate := by simp [hfacts]
  obtain ⟨_, e₂, hask, rfl, hkb₂⟩ :=
    (ends_ask_of_mem (hlimit₁ ▸ hlimit) hparse hground huser hfin hmem htexts₁).ok
  obtain ⟨n, e₃, hretract, hn, hkb₃⟩ := (ends_retractFact (e := e₂) hparse).ok
  refine ⟨e₁, e₂, e₃, n, hassert, hask, hretract, ?_, ?_⟩
  · rw [hn, hkb₂, KnowledgeBase.countFact]
    exact List.countP_pos_iff.mpr ⟨f, hmem, hclose⟩
  · obtain ⟨log, hlog⟩ := exists_log_calls s cs
    have hlists := (KnowledgeBase.recorded_ofLog log).facts
    rw [← hlog] at hlists
    have hkeep : ∀ g : Fact, g.predicate ≠ f.predicate → (!g.close f) = true := by
      intro g hg
      simp [Fact.close, hg]
    rw [hkb₃, hkb₂, hkb₁]
    exact hlists.add_filterAt (by simp [hclose]) hkeep

/-- A predicate with a rule that calls itself and a fact with variables. -/
def crowded : List Call :=
  [.addRule ⟨⟨"p", [.var "X", .var "Y"]⟩, [⟨"p", [.var "X", .var "Y"], false⟩]⟩,
    .addFact ⟨"p", [.var "X", .var "X"]⟩]

set_option maxRecDepth 4000 in
theorem ask_retract_of_assert_crowded :
    let text := "p(a, s(3))."
    let f : Fact := ⟨"p", [.atom "a", .compound "s" [.int 3]]⟩
    let e := (ofSettings {}).calls crowded
    Fact.parse text = .ok f ∧ ∃ e₁ e₂ e₃ n,
      (assertFact text).run.run e = (.ok (), e₁) ∧
      (ask text).run.run e₁ = (.ok true, e₂) ∧
      (retractFact text).run.run e₂ = (.ok n, e₃) ∧ 1 ≤ n ∧
      e₃.kb.facts.all = e.kb.facts.all.filter (fun g => !g.close f) ∧
      ∀ p, e₃.kb.factsFor p = (e.kb.factsFor p).filter fun g => !g.close f := by
  intro text f e
  have hparse : Fact.parse text = .ok f := by cbv
  have hlimit : ({} : Settings).query.options.limit.isExceededBy 1 = false := by decide +kernel
  have htexts : ∀ g ∈ e.kb.factsFor f.predicate, g.arity = f.arity → g.hasText = true := by
    decide +kernel
  exact ⟨hparse, ask_retract_of_assert rfl hlimit crowded hparse rfl rfl rfl htexts⟩

/-- An infinite number is not close to itself: the fact is stored, not found, and not removed. -/
theorem ask_retract_infinite :
    let text := "p(1e999)."
    let e := (ofSettings {}).call (.assertFact text)
    e.kb.factsCount = 1 ∧ ((ask text).run.run e).1.toOption = some false ∧
      ((retractFact text).run.run e).1.toOption = some 0 := by
  unfold ask Evaluator.ask Evaluator.search
  rw [Search.search_eq_boundedSearch]
  decide +kernel

-- The condition on texts is needed as well: the search meets the long integer before the fact.
example :
    let e := (ofSettings {}).calls [.addFact ⟨"p", [.int (10 ^ 4300)]⟩, .assertFact "p(1)."]
    e.kb.factsCount = 2 ∧ ((ask "p(1).").run.run e).1.toOption = none := by
  unfold ask Evaluator.ask Evaluator.search
  rw [Search.search_eq_boundedSearch]
  decide +kernel

end Engine

end Clausal
