import Clausal.Proofs.Grammar.Completeness
import Clausal.Proofs.Grammar.Lexing

/-!
# Parsing decides the grammar

A text that can be cut into tokens and has no integer that is too long is read exactly if the
grammar derives a value from its tokens, and then as this value. There is at most one derivation.
Every other text is refused as a text.
-/

namespace Clausal.Grammar

/-- The outcome of parsing tells whether the tokens have a derivation, and its value. -/
structure Start.DecidedBy {α : Type} (s : Start α) (ts : List Token)
    (result : Except Fault α) : Prop where
  ok_iff : ∀ v, result = .ok v ↔ s.Derives ts v
  refused : (∀ v, ¬ s.Derives ts v) → ∃ cause, result = .error (.parse cause)
  unique : ∀ d d', s.tokens d = ts → s.tokens d' = ts → d = d'

namespace Start

section General

variable {α : Type} {s : Start α} {ts : List Token} {result : Except Fault α} (hs : s.Unambiguous)
include hs

theorem decidedBy_of_readsAll {stop : Nat} (hreads : ReadsAll s stop ts result)
    (hcomplete : ∀ v, s.Derives ts v → result = .ok v) (hshort : ∀ t ∈ ts, ¬ t.IsLongInteger) :
    s.DecidedBy ts result where
  ok_iff v := by
    refine ⟨fun hr => ?_, hcomplete v⟩
    rw [hr] at hreads
    exact hreads
  refused hnot := by
    match result with
    | .ok v => exact (hnot v hreads).elim
    | .error (.parse cause) => exact ⟨cause, rfl⟩
    | .error (.longNumeral digits) =>
        obtain ⟨t, ht, hlong, _⟩ := hreads
        exact (hshort t ht hlong).elim
  unique _ _ hd hd' := hs (hd.trans hd'.symm)

theorem decidedBy_of_error (cause : ParseFault) (hr : result = .error (.parse cause))
    (hnot : ∀ v, ¬ s.Derives ts v) : s.DecidedBy ts result where
  ok_iff v := by simp [hr, hnot v]
  refused _ := ⟨cause, hr⟩
  unique _ _ hd hd' := hs (hd.trans hd'.symm)

end General

variable {text : String} {ts : List Token} (htext : tokenize text = .ok ts)
  (hshort : ∀ t ∈ ts, ¬ t.IsLongInteger)
include htext hshort

theorem decidedBy_rule : rule.DecidedBy ts (Rule.parse text) := by
  have hts : Proper ts := proper_of_tokenize htext
  cases hneck : mentionsNeck text.toList with
  | true =>
      exact decidedBy_of_readsAll unambiguous_rule (Rule.readsAll_parse htext hts hneck)
        (fun r => Rule.parse_of_derives htext hts hneck) hshort
  | false =>
      refine decidedBy_of_error unambiguous_rule .missingNeck ?_ ?_
      · rw [Rule.parse, if_neg (by simp [hneck])]
      · rintro r ⟨d, rfl, _⟩
        have hmem : ⟨.neck, ":-", d.neck⟩ ∈ rule.tokens d := by simp [rule, ClauseTree.tokens]
        simp [mentionsNeck_of_mem htext hmem rfl] at hneck

theorem decidedBy_query : query.DecidedBy ts (Goal.parseQuery text) := by
  have hts : Proper ts := proper_of_tokenize htext
  cases ts with
  | nil =>
      refine decidedBy_of_error unambiguous_query .emptyQuery ?_ ?_
      · rw [Goal.parseQuery, htext]
        rfl
      · rintro gs ⟨d, htokens, _⟩
        simp [query, BodyTree.tokens, d.body.first.tokens_ne_nil] at htokens
  | cons t ts =>
      exact decidedBy_of_readsAll unambiguous_query (Goal.readsAll_parseQuery htext hts (by simp))
        (fun gs => Goal.parseQuery_of_derives htext hts) hshort

theorem decidedBy_parse :
    term.DecidedBy ts (Term.parse text) ∧
    fact.DecidedBy ts (Fact.parse text) ∧
    rule.DecidedBy ts (Rule.parse text) ∧
    query.DecidedBy ts (Goal.parseQuery text) ∧
    program.DecidedBy ts (Clause.parseProgram text) := by
  have hts : Proper ts := proper_of_tokenize htext
  refine ⟨?_, ?_, decidedBy_rule htext hshort, decidedBy_query htext hshort, ?_⟩
  · exact decidedBy_of_readsAll unambiguous_term (Term.readsAll_parse htext hts)
      (fun t => Term.parse_of_derives htext hts) hshort
  · exact decidedBy_of_readsAll unambiguous_fact (Fact.readsAll_parse htext hts)
      (fun f => Fact.parse_of_derives htext hts) hshort
  · exact decidedBy_of_readsAll unambiguous_program (Clause.readsAll_parseProgram htext hts)
      (fun cs => Clause.parseProgram_of_derives htext hts) hshort

omit htext hshort in
theorem decidedBy_parse_negation :
    let text := "p :- not q, X > -1."
    let ts : List Token := [⟨.name, "p", 0⟩, ⟨.neck, ":-", 2⟩, ⟨.name, "not", 5⟩, ⟨.name, "q", 9⟩,
      ⟨.punct, ",", 10⟩, ⟨.name, "X", 12⟩, ⟨.op, ">", 14⟩, ⟨.op, "-", 16⟩, ⟨.number, "1", 17⟩,
      ⟨.punct, ".", 18⟩]
    term.DecidedBy ts (Term.parse text) ∧ fact.DecidedBy ts (Fact.parse text) ∧
      rule.DecidedBy ts (Rule.parse text) ∧ query.DecidedBy ts (Goal.parseQuery text) ∧
      program.DecidedBy ts (Clause.parseProgram text) :=
  decidedBy_parse (by cbv) (by decide +kernel)

end Start

end Clausal.Grammar
