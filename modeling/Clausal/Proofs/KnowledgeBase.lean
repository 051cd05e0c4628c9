import Clausal.KnowledgeBase
import Mathlib.Tactic.Common

/-!
# Clauses by predicate

What is stored under a predicate, before and after a clause is added. Addition keeps the order: the
clauses of a predicate from before are a sublist of those after.
-/

namespace Clausal

namespace Groups

variable {α : Type}

theorem mem_all_of_mem_get {g : Groups α} {name : String} {a : α} (h : a ∈ g.get name) :
    a ∈ g.all := by
  rw [get] at h
  cases hlookup : g.groups.lookup name with
  | none => simp [hlookup] at h
  | some as =>
      obtain ⟨before, after, heq, _⟩ := List.lookup_eq_some_iff.mp hlookup
      rw [hlookup, Option.getD_some] at h
      exact List.mem_flatMap.mpr ⟨(name, as), by simp [heq], h⟩

theorem get_add (g : Groups α) (name name' : String) (a : α) :
    (g.add name a).get name' = g.get name' ++ if name' = name then [a] else [] := by
  obtain ⟨gs⟩ := g
  rw [add, get, get]
  dsimp only
  induction gs with
  | nil =>
      by_cases h : name' = name
      · simp [insert, h]
      · simp [insert, List.lookup_cons, beq_false_of_ne h, h]
  | cons group gs ih =>
      obtain ⟨n, as⟩ := group
      rw [insert]
      by_cases hn : n = name
      · subst hn
        by_cases h : name' = n
        · simp [h]
        · simp [List.lookup_cons, beq_false_of_ne h, h]
      · rw [if_neg (by simpa using hn)]
        by_cases h : name' = n
        · subst h
          simp [hn]
        · simpa [List.lookup_cons, beq_false_of_ne h] using ih

theorem mem_flatMap_insert {name : String} {a b : α} {gs : List (String × List α)} :
    b ∈ (insert name a gs).flatMap Prod.snd ↔ b ∈ gs.flatMap Prod.snd ∨ b = a := by
  induction gs with
  | nil => simp [insert]
  | cons g gs ih =>
      rw [insert]
      split
      · simp only [List.flatMap_cons, List.mem_append, List.mem_singleton]
        tauto
      · simp only [List.flatMap_cons, List.mem_append, ih]
        tauto

theorem mem_all_add {g : Groups α} {name : String} {a b : α} :
    b ∈ (g.add name a).all ↔ b ∈ g.all ∨ b = a :=
  mem_flatMap_insert

theorem mem_all_of_mem_filterAt {g : Groups α} {name : String} {keep : α → Bool} {a : α}
    (h : a ∈ (g.filterAt name keep).all) : a ∈ g.all := by
  obtain ⟨group, hgroup, ha⟩ := List.mem_flatMap.mp h
  obtain ⟨⟨n, as⟩, hmem, rfl⟩ := List.mem_map.mp hgroup
  dsimp only at ha
  split at ha
  · exact List.mem_flatMap.mpr ⟨(n, as), hmem, (List.mem_filter.mp ha).1⟩
  · exact List.mem_flatMap.mpr ⟨(n, as), hmem, ha⟩

end Groups

namespace KnowledgeBase

variable {kb : KnowledgeBase} {p : String}

theorem mem_facts_of_mem_factsFor {f : Fact} (h : f ∈ kb.factsFor p) : f ∈ kb.facts.all :=
  Groups.mem_all_of_mem_get h

theorem mem_rules_of_mem_rulesFor {r : Rule} (h : r ∈ kb.rulesFor p) : r ∈ kb.rules.all :=
  Groups.mem_all_of_mem_get h

theorem lookup_filter_ne {p q : String} (hqp : q ≠ p) (table : List (String × Nat)) :
    (table.filter (·.1 != p)).lookup q = table.lookup q := by
  induction table with
  | nil => rfl
  | cons entry table ih =>
      obtain ⟨name, n⟩ := entry
      by_cases hname : name = p
      · have hq : (q == name) = false := by simpa [hname] using hqp
        rw [List.filter_cons_of_neg (by simp [hname]), ih, List.lookup_cons, hq]
      · rw [List.filter_cons_of_pos (by simpa using hname), List.lookup_cons, List.lookup_cons, ih]

theorem arityOf?_register (kb : KnowledgeBase) (p q : String) (n : Nat) :
    (kb.register p n).arityOf? q = if q = p then some n else kb.arityOf? q := by
  rw [arityOf?, register, List.lookup_cons]
  by_cases hqp : q = p
  · simp [hqp]
  · have hbeq : (q == p) = false := by simpa using hqp
    rw [hbeq, if_neg hqp]
    exact lookup_filter_ne hqp kb.signatures

/-- The clauses of each predicate stand in the other knowledge base, in the same order. -/
structure Below (kb kb' : KnowledgeBase) : Prop where
  facts : ∀ predicate, (kb.factsFor predicate).Sublist (kb'.factsFor predicate)
  rules : ∀ predicate, (kb.rulesFor predicate).Sublist (kb'.rulesFor predicate)

theorem below_addClause (kb : KnowledgeBase) (c : Clause) : kb.Below (kb.addClause c) := by
  cases c with
  | fact f =>
      refine ⟨fun predicate => ?_, fun predicate => List.Sublist.refl _⟩
      change List.Sublist _ ((kb.facts.add f.predicate f).get predicate)
      rw [Groups.get_add]
      exact List.sublist_append_left _ _
  | rule r =>
      refine ⟨fun predicate => List.Sublist.refl _, fun predicate => ?_⟩
      change List.Sublist _ ((kb.rules.add r.predicate r).get predicate)
      rw [Groups.get_add]
      exact List.sublist_append_left _ _

theorem below_addClauses (kb : KnowledgeBase) (clauses : List Clause) :
    kb.Below (clauses.foldl addClause kb) := by
  induction clauses generalizing kb with
  | nil => exact ⟨fun _ => List.Sublist.refl _, fun _ => List.Sublist.refl _⟩
  | cons c clauses ih =>
      have hc := kb.below_addClause c
      have hrest := ih (kb.addClause c)
      exact ⟨fun q => (hc.facts q).trans (hrest.facts q),
        fun q => (hc.rules q).trans (hrest.rules q)⟩

end KnowledgeBase

end Clausal
