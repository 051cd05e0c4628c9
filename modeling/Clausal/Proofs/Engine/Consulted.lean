import Clausal.Proofs.Engine.Asserted
import Clausal.Proofs.Grammar.Concatenation
import Clausal.Proofs.Grammar.Located

/-!
# Consulted programs

An engine that is not strict stores all facts and then all rules of a program, each behind those
that are there. So the order in which facts and rules alternate does not matter, and a program that
is put together from two leaves what the two leave one after the other.
-/

namespace Clausal

namespace Grammar

/-- The clauses of a program are the values of syntax trees. -/
theorem exists_clauseTree_of_mem {d : ProgramTree} {cs : List Clause}
    (h : Start.program.value d = some cs) {c : Clause} (hc : c ∈ cs) :
    ∃ t : ClauseTree, t.value = some c := by
  obtain ⟨ended, last⟩ := d
  induction ended generalizing cs with
  | nil =>
      cases last with
      | none =>
          obtain rfl : [] = cs := Option.some.inj h
          simp at hc
      | some t =>
          obtain ⟨c', hc', rfl⟩ : ∃ c', t.value = some c' ∧ [c'] = cs := by
            simpa [Start.program, Option.bind_eq_some_iff] using h
          obtain rfl := List.mem_singleton.mp hc
          exact ⟨t, hc'⟩
  | cons head ended ih =>
      obtain ⟨t, p⟩ := head
      obtain ⟨c', hc', cs', hcs, rfl⟩ : ∃ c', t.value = some c' ∧
          ∃ cs', Start.program.value ⟨ended, last⟩ = some cs' ∧ c' :: cs' = cs := by
        simpa [Start.program_value_cons, Option.bind_eq_some_iff] using h
      rcases List.mem_cons.mp hc with rfl | hc
      · exact ⟨t, hc'⟩
      · exact ih hc hcs

end Grammar

open Grammar

def Clause.hasText : Clause → Bool
  | .fact f => f.hasText
  | .rule r => r.hasText

theorem Grammar.ClauseTree.hasText_value {t : ClauseTree} {c : Clause} (h : t.value = some c) :
    c.hasText = true := by
  cases t with
  | fact head =>
      obtain ⟨f, hf, rfl⟩ := Option.map_eq_some_iff.mp h
      exact head.hasText_value hf
  | rule head neck body =>
      obtain ⟨f, hf, gs, hgs, rfl⟩ : ∃ f, head.value = some f ∧ ∃ gs, body.value = some gs ∧
          Clause.rule ⟨f, gs⟩ = c := by
        simpa [value, Option.bind_eq_some_iff] using h
      exact Bool.and_eq_true_iff.mpr ⟨head.hasText_value hf, body.hasText_value hgs⟩

theorem Clause.hasText_of_parseProgram {text : String} {cs : List Clause}
    (h : Clause.parseProgram text = .ok cs) {c : Clause} (hc : c ∈ cs) : c.hasText = true := by
  obtain ⟨d, _, hd⟩ := Clause.exists_tree_of_parseProgram h
  obtain ⟨t, ht⟩ := exists_clauseTree_of_mem hd hc
  exact t.hasText_value ht

theorem Grammar.mem_factsOf {cs : List Clause} {f : Fact} : f ∈ factsOf cs ↔ .fact f ∈ cs := by
  rw [factsOf, List.mem_filterMap]
  constructor
  · rintro ⟨c, hc, heq⟩
    cases c with
    | fact g => exact Option.some.inj heq ▸ hc
    | rule r => cases heq
  · exact fun hc => ⟨.fact f, hc, rfl⟩

theorem Grammar.mem_rulesOf {cs : List Clause} {r : Rule} : r ∈ rulesOf cs ↔ .rule r ∈ cs := by
  rw [rulesOf, List.mem_filterMap]
  constructor
  · rintro ⟨c, hc, heq⟩
    cases c with
    | fact f => cases heq
    | rule r' => exact Option.some.inj heq ▸ hc
  · exact fun hc => ⟨.rule r, hc, rfl⟩

namespace Engine

/-- The engine has more facts and rules, each behind the earlier ones, and the same settings. -/
structure Gains (e e' : Engine) (fs : List Fact) (rs : List Rule) : Prop where
  settings : e'.settings = e.settings
  facts : e'.kb.facts = fs.foldl (fun g f => g.add f.predicate f) e.kb.facts
  rules : e'.kb.rules = rs.foldl (fun g r => g.add r.predicate r) e.kb.rules

namespace Gains

variable {e e' e'' : Engine} {fs fs' : List Fact} {rs rs' : List Rule}

theorem refl (e : Engine) : Gains e e [] [] := ⟨rfl, rfl, rfl⟩

theorem trans (h : Gains e e' fs rs) (h' : Gains e' e'' fs' rs') :
    Gains e e'' (fs ++ fs') (rs ++ rs') where
  settings := h'.settings.trans h.settings
  facts := by rw [List.foldl_append, ← h.facts, h'.facts]
  rules := by rw [List.foldl_append, ← h.rules, h'.rules]

theorem lenient (h : Gains e e' fs rs) (hstrict : e.settings.validation.strict.isTrue = false) :
    e'.settings.validation.strict.isTrue = false := by
  rw [h.settings]
  exact hstrict

end Gains

/-- On every engine that is not strict the action returns and stores these facts and rules. -/
def Stores (a : Action Unit) (fs : List Fact) (rs : List Rule) : Prop :=
  ∀ e : Engine, e.settings.validation.strict.isTrue = false →
    Ends a e (fun _ e' => Gains e e' fs rs) fun _ _ => False

theorem stores_addFact {f : Fact} (htext : f.hasText = true) : Stores (addFact f) [f] [] := by
  intro e hstrict
  refine (ends_addFact_of_lenient hstrict htext).mono ?_ fun _ _ h => h
  rintro _ e' ⟨hsettings, hevaluator⟩
  have hkb : e'.kb = (e.kb.addFact f).register f.predicate f.arity :=
    congrArg Evaluator.kb hevaluator
  exact ⟨hsettings, by rw [hkb]; rfl, by rw [hkb]; rfl⟩

theorem stores_addRule {r : Rule} (htext : r.hasText = true) : Stores (addRule r) [] [r] := by
  intro e hstrict
  refine ends_bind (ends_get (ends_bind ?_))
  refine (ends_check_of_lenient hstrict _ r.write r.text).mono ?_ fun _ _ h => h
  rintro _ _ ⟨log, rfl⟩
  refine ends_bind (ends_modify (ends_bind (ends_register fun log' => ends_bind ?_)))
  exact ends_written (if_pos htext) (ends_modify ⟨rfl, rfl, rfl⟩)

theorem Stores.bind {a b : Action Unit} {fs fs' : List Fact} {rs rs' : List Rule}
    (ha : Stores a fs rs) (hb : Stores b fs' rs') : Stores (do a; b) (fs ++ fs') (rs ++ rs') := by
  intro e hstrict
  refine ends_bind ((ha e hstrict).mono (fun _ e' hgains => ?_) fun _ _ h => h)
  exact (hb e' (hgains.lenient hstrict)).mono (fun _ _ h => hgains.trans h) fun _ _ h => h

theorem stores_forM {α : Type} {act : α → Action Unit} {fs : α → List Fact} {rs : α → List Rule}
    {xs : List α} (h : ∀ x ∈ xs, Stores (act x) (fs x) (rs x)) :
    Stores (xs.forM act) (xs.flatMap fs) (xs.flatMap rs) := by
  induction xs with
  | nil => exact fun e _ => ends_pure (Gains.refl e)
  | cons x xs ih =>
      obtain ⟨hx, hxs⟩ := List.forall_mem_cons.mp h
      exact hx.bind (ih hxs)

/-- All facts and all rules of a program are stored. -/
theorem stores_consult {text : String} {cs : List Clause} (h : Clause.parseProgram text = .ok cs) :
    Stores (consult text) (factsOf cs) (rulesOf cs) := by
  have htext : ∀ c ∈ cs, c.hasText = true := fun c hc => Clause.hasText_of_parseProgram h hc
  have hfacts : Stores ((factsOf cs).forM addFact) (factsOf cs) [] := by
    have hall := stores_forM fun f hf => stores_addFact (htext _ (mem_factsOf.mp hf))
    rwa [List.flatMap_singleton', List.flatMap_eq_nil_iff.mpr fun _ _ => rfl] at hall
  have hrules : Stores ((rulesOf cs).forM addRule) [] (rulesOf cs) := by
    have hall := stores_forM fun r hr => stores_addRule (htext _ (mem_rulesOf.mp hr))
    rwa [List.flatMap_singleton', List.flatMap_eq_nil_iff.mpr fun _ _ => rfl] at hall
  have hboth := hfacts.bind hrules
  rw [List.append_nil, List.nil_append] at hboth
  exact fun e hstrict => ends_bind (ends_written h (hboth e hstrict))

/-- A program that ends with a period can be continued on a new line. Its clauses come first, a
fault in the second program moves by what stands in front, and an engine that is not strict stores
what it stores when the two are consulted one after the other. If the second one has a fault,
nothing is stored. -/
theorem consult_append_line {p₁ p₂ : String} {cs₁ : List Clause}
    (hparse : Clause.parseProgram p₁ = .ok cs₁)
    (hperiod : ∀ ts, tokenize p₁ = .ok ts → ∀ t ∈ ts.getLast?, t.text = ".") :
    (∀ cs₂, Clause.parseProgram p₂ = .ok cs₂ →
      (∃ cs, Clause.parseProgram (p₁ ++ "\n" ++ p₂) = .ok cs ∧
        factsOf cs = factsOf cs₁ ++ factsOf cs₂ ∧ rulesOf cs = rulesOf cs₁ ++ rulesOf cs₂) ∧
      ∀ e : Engine, e.settings.validation.strict.isTrue = false → ∃ e₁ e₂ e',
        (consult p₁).run.run e = (.ok (), e₁) ∧ (consult p₂).run.run e₁ = (.ok (), e₂) ∧
        (consult (p₁ ++ "\n" ++ p₂)).run.run e = (.ok (), e') ∧
        e'.kb.facts = e₂.kb.facts ∧ e'.kb.rules = e₂.kb.rules) ∧
    ∀ cause, Clause.parseProgram p₂ = .error (.parse cause) →
      ∃ k cause', cause.position? = some k ∧
        Clause.parseProgram (p₁ ++ "\n" ++ p₂) = .error (.parse cause') ∧
        cause'.position? = some (p₁.length + 1 + k) ∧
        ∀ e : Engine, (consult (p₁ ++ "\n" ++ p₂)).run.run e = (.error (.parse cause'), e) := by
  have hwhole := Clause.parseProgram_append_line hparse hperiod p₂
  constructor
  · intro cs₂ hparse₂
    have happend : Clause.parseProgram (p₁ ++ "\n" ++ p₂) = .ok (cs₁ ++ cs₂) := by
      rw [hwhole, hparse₂]
      rfl
    have hfacts : factsOf (cs₁ ++ cs₂) = factsOf cs₁ ++ factsOf cs₂ := List.filterMap_append ..
    have hrules : rulesOf (cs₁ ++ cs₂) = rulesOf cs₁ ++ rulesOf cs₂ := List.filterMap_append ..
    refine ⟨⟨_, happend, hfacts, hrules⟩, fun e hstrict => ?_⟩
    obtain ⟨_, e₁, hrun₁, hgains₁⟩ := (stores_consult hparse e hstrict).ok
    obtain ⟨_, e₂, hrun₂, hgains₂⟩ := (stores_consult hparse₂ e₁ (hgains₁.lenient hstrict)).ok
    obtain ⟨_, e', hrun, hgains⟩ := (stores_consult happend e hstrict).ok
    rw [hfacts, hrules] at hgains
    have hboth := hgains₁.trans hgains₂
    exact ⟨e₁, e₂, e', hrun₁, hrun₂, hrun, hgains.facts.trans hboth.facts.symm,
      hgains.rules.trans hboth.rules.symm⟩
  · intro cause hparse₂
    rw [hparse₂] at hwhole
    have hlocated := Clause.located_parseProgram p₂
    rw [hparse₂] at hlocated
    cases hk : cause.position? with
    | none => simp [Located, hk] at hlocated
    | some k =>
        refine ⟨k, cause.shift (p₁.length + 1), rfl, hwhole, by simp [hk], fun e => ?_⟩
        rw [consult, hwhole]
        rfl

set_option maxRecDepth 4000 in
/-- The new line ends the comment of the first program; the second one has no last period. -/
theorem consult_append_line_commented :
    let p₁ := "p(a).\nq(X) :- p(X). % all"
    let p₂ := "p(b). q(1)"
    let cs₁ : List Clause :=
      [.fact ⟨"p", [.atom "a"]⟩, .rule ⟨⟨"q", [.var "X"]⟩, [⟨"p", [.var "X"], false⟩]⟩]
    let cs₂ : List Clause := [.fact ⟨"p", [.atom "b"]⟩, .fact ⟨"q", [.int 1]⟩]
    Clause.parseProgram p₁ = .ok cs₁ ∧ Clause.parseProgram p₂ = .ok cs₂ ∧
      ∃ e₁ e₂ e', (consult p₁).run.run (ofSettings {}) = (.ok (), e₁) ∧
        (consult p₂).run.run e₁ = (.ok (), e₂) ∧
        (consult (p₁ ++ "\n" ++ p₂)).run.run (ofSettings {}) = (.ok (), e') ∧
        e'.kb.facts = e₂.kb.facts ∧ e'.kb.rules = e₂.kb.rules := by
  intro p₁ p₂ cs₁ cs₂
  have hparse₁ : Clause.parseProgram p₁ = .ok cs₁ := by cbv
  have hparse₂ : Clause.parseProgram p₂ = .ok cs₂ := by cbv
  have hlast : ((tokenize p₁).toOption.bind List.getLast?).map Token.text = some "." := by
    decide +kernel
  have hperiod : ∀ ts, tokenize p₁ = .ok ts → ∀ t ∈ ts.getLast?, t.text = "." := by
    intro ts hts t ht
    rw [hts] at hlast
    change ts.getLast?.map Token.text = some "." at hlast
    rw [ht] at hlast
    exact Option.some.inj hlast
  exact ⟨hparse₁, hparse₂,
    ((consult_append_line hparse₁ hperiod).1 cs₂ hparse₂).2 (ofSettings {}) rfl⟩

end Engine

end Clausal
