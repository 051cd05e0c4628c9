import Clausal.Proofs.Search.Congruence
import Clausal.Proofs.Search.Recursion

/-!
# Relevant predicates

The predicates that matter to a query are those of its goals, those of the bodies of their rules,
and so on; whether a goal is negated or built-in makes no difference. Clauses of other predicates
can be added, removed and reordered without any effect on the query.
-/

namespace Clausal

/-- The predicates that a search for the goals can come to. -/
inductive Relevant (kb : KnowledgeBase) (goals : List Goal) : String → Prop
  | goal {g : Goal} (hg : g ∈ goals) : Relevant kb goals g.predicate
  | body {p : String} {r : Rule} {g : Goal} (hp : Relevant kb goals p) (hr : r ∈ kb.rulesFor p)
      (hg : g ∈ r.body) : Relevant kb goals g.predicate

theorem Relevant.mem_of_closed {kb : KnowledgeBase} {goals : List Goal} {names : List String}
    (hgoals : ∀ g ∈ goals, g.predicate ∈ names)
    (hbody : ∀ p ∈ names, ∀ r ∈ kb.rulesFor p, ∀ g ∈ r.body, g.predicate ∈ names) {p : String}
    (h : Relevant kb goals p) : p ∈ names := by
  induction h with
  | goal hg => exact hgoals _ hg
  | body _ hr hg ih => exact hbody _ ih _ hr _ hg

namespace Evaluator

open Search

theorem agreeOn_relevant {kb kb' : KnowledgeBase} {goals : List Goal}
    (h : ∀ p, Relevant kb goals p → kb'.factsFor p = kb.factsFor p ∧ kb'.rulesFor p = kb.rulesFor p)
    (o : Options) (wanted : Option Nat) :
    AgreeOn (fun g => Relevant kb goals g.predicate) ⟨kb, o, wanted⟩ ⟨kb', o, wanted⟩ where
  options := rfl
  clauses _ hg := h _ hg
  body _ hg _ hr _ hg' := .body hg hr hg'
  copy _ _ hg := hg
  inner _ hg _ := ⟨rfl, hg⟩

/-- A query has the same outcome, which is its results or a fault, and makes the same progress in a
knowledge base with the same clauses for all relevant predicates. -/
theorem answers_of_relevant {ev : Evaluator} {goals : List Goal} {kb' : KnowledgeBase}
    (h : ∀ p, Relevant ev.kb goals p →
      kb'.factsFor p = ev.kb.factsFor p ∧ kb'.rulesFor p = ev.kb.rulesFor p) (b : Bindings) :
    (ev.withKb kb').solve goals b = ((ev.solve goals b).1, (ev.solve goals b).2.withKb kb') ∧
      (ev.withKb kb').ask goals = ((ev.ask goals).1, (ev.ask goals).2.withKb kb') := by
  have hsearch : ∀ (wanted : Option Nat) (b : Bindings),
      Search.search ⟨kb', ev.options, wanted⟩ ev.options.strategy ⟨goals, b, 0⟩ {} =
        Search.search ⟨ev.kb, ev.options, wanted⟩ ev.options.strategy ⟨goals, b, 0⟩ {} := by
    intro wanted b
    refine search_congr rfl rfl fun n => ?_
    exact (agreeOn_relevant h ev.options wanted).walk_eq _ _ _ _ _ fun g hg => .goal hg
  constructor
  · rw [solve_of_search ev goals b rfl, solve_of_search (ev.withKb kb') goals b (hsearch none b)]
    rfl
  · rw [ask_of_search ev goals rfl, ask_of_search (ev.withKb kb') goals (hsearch (some 1) ∅)]
    rfl

/-- Roads between towns, some of which are closed. -/
def towns : Evaluator :=
  { kb := ((((KnowledgeBase.empty.addFact ⟨"road", [.atom "a", .atom "b"]⟩).addFact
      ⟨"road", [.atom "b", .atom "c"]⟩).addFact ⟨"closed", [.atom "b"]⟩).addRule
      ⟨⟨"trip", [.var "X", .var "Y"]⟩,
        [⟨"road", [.var "X", .var "Y"], false⟩, ⟨"closed", [.var "Y"], true⟩]⟩).addRule
      ⟨⟨"trip", [.var "X", .var "Z"]⟩,
        [⟨"road", [.var "X", .var "Y"], false⟩, ⟨"trip", [.var "Y", .var "Z"], false⟩]⟩
    options := { limit := .whole 9 } }

/-- A mayor for every town, and a rule about trips that no trip needs. -/
def townsWithMayors : KnowledgeBase :=
  (towns.kb.addFact ⟨"mayor", [.var "T", .atom "m"]⟩).addRule
    ⟨⟨"visit", [.var "M"]⟩,
    [⟨"mayor", [.var "T", .var "M"], false⟩, ⟨"trip", [.var "T", .var "T"], true⟩]⟩

def townsQuery : List Goal :=
  [⟨"trip", [.atom "a", .var "W"], false⟩, ⟨"=", [.var "W", .var "V"], false⟩]

theorem answers_of_relevant_towns :
    townsWithMayors.size = towns.kb.size + 2 ∧
      (∃ rs, (towns.solve townsQuery ∅).1 = .ok rs ∧ rs.length = 1) ∧
      (towns.withKb townsWithMayors).solve townsQuery ∅ =
        ((towns.solve townsQuery ∅).1, (towns.solve townsQuery ∅).2.withKb townsWithMayors) ∧
      (towns.withKb townsWithMayors).ask townsQuery =
        ((towns.ask townsQuery).1, (towns.ask townsQuery).2.withKb townsWithMayors) := by
  have hsame : ∀ p, Relevant towns.kb townsQuery p →
      townsWithMayors.factsFor p = towns.kb.factsFor p ∧
        townsWithMayors.rulesFor p = towns.kb.rulesFor p := by
    intro p hp
    have hmem : p ∈ ["trip", "road", "closed", "="] := hp.mem_of_closed (by decide) (by decide)
    simp only [List.mem_cons, List.not_mem_nil, or_false] at hmem
    rcases hmem with rfl | rfl | rfl | rfl
    all_goals exact ⟨rfl, rfl⟩
  refine ⟨rfl, ?_, answers_of_relevant hsame ∅⟩
  exact exists_ok_of_length (by rw [solve_eq_walk rfl]; decide +kernel)

end Evaluator

end Clausal
