import Clausal.Proofs.KnowledgeBase
import Mathlib.Data.List.DropRight
import Mathlib.Data.List.Nodup

/-!
# Knowledge bases and the log of their updates

A knowledge base is read off the flat log of its updates. A fact survives if no later update of the
log drops it, clauses and signatures from before the last `clear` are gone, and a predicate has its
place from its first fact after that `clear` on, whether or not one of its facts survives.

The test for a removal is closeness of facts, which is not transitive, so survival is said of each
fact and the updates that come after it, and not of classes of equal facts.
-/

namespace Clausal

namespace Groups

variable {α : Type} {key : α → String} {g : Groups α} {names : List String} {items : List α}

/-- The groups stand in the order of the names, and each holds the items with its name in the order
of the items. No item has a name without a group. -/
structure Lists (g : Groups α) (key : α → String) (names : List String)
    (items : List α) : Prop where
  nodup : names.Nodup
  named : ∀ a ∈ items, key a ∈ names
  groups : g.groups = names.map fun n => (n, items.filter (key · == n))

theorem lists_nil (key : α → String) : Lists {} key [] [] :=
  ⟨List.nodup_nil, by simp, rfl⟩

theorem lookup_map_of_notMem {β : Type} (f : String → β) {n : String} (h : n ∉ names) :
    (names.map fun n => (n, f n)).lookup n = none := by
  rw [List.lookup_eq_none_iff]
  intro entry hentry
  obtain ⟨m, hm, rfl⟩ := List.mem_map.mp hentry
  have hne : n ≠ m := fun heq => h (heq ▸ hm)
  simpa using hne

theorem Lists.get (h : g.Lists key names items) (n : String) :
    g.get n = items.filter (key · == n) := by
  rw [Groups.get, h.groups]
  by_cases hn : n ∈ names
  · rw [List.lookup_graph _ hn, Option.getD_some]
  · rw [lookup_map_of_notMem _ hn, Option.getD_none]
    refine (List.filter_eq_nil_iff.mpr fun a ha heq => hn ?_).symm
    exact beq_iff_eq.mp heq ▸ h.named a ha

theorem Lists.all (h : g.Lists key names items) :
    g.all = names.flatMap fun n => items.filter (key · == n) := by
  rw [Groups.all, h.groups, List.flatMap_map]

/-- Grouping by distinct names counts each item with one of the names once. -/
theorem length_flatMap_filter (hnodup : names.Nodup) (items : List α) :
    (names.flatMap fun n => items.filter (key · == n)).length =
      items.countP fun a => decide (key a ∈ names) := by
  induction names with
  | nil => simp
  | cons n names ih =>
      obtain ⟨hn, hnodup⟩ := List.nodup_cons.mp hnodup
      rw [List.flatMap_cons, List.length_append, ih hnodup, ← List.countP_eq_length_filter]
      clear ih
      -- An item with the first name is in no later group.
      induction items with
      | nil => rfl
      | cons a items ihitems =>
          simp only [List.countP_cons, List.mem_cons, beq_iff_eq, decide_eq_true_eq] at ihitems ⊢
          by_cases ha : key a = n
          · have hnot : key a ∉ names := ha ▸ hn
            simp only [ha, hn, true_or, if_true, if_false]
            omega
          · simp only [ha, false_or, if_false]
            omega

theorem Lists.size (h : g.Lists key names items) : g.size = items.length := by
  rw [Groups.size, h.all, length_flatMap_filter h.nodup, List.countP_eq_length]
  exact fun a ha => decide_eq_true (h.named a ha)

theorem insert_map_of_mem (f : String → List α) {n : String} (a : α) (hnodup : names.Nodup)
    (h : n ∈ names) :
    insert n a (names.map fun m => (m, f m)) =
      names.map fun m => (m, f m ++ if m = n then [a] else []) := by
  induction names with
  | nil => simp at h
  | cons m names ih =>
      obtain ⟨hm, hnodup⟩ := List.nodup_cons.mp hnodup
      rw [List.map_cons, insert, List.map_cons]
      by_cases heq : m = n
      · subst heq
        rw [if_pos (beq_self_eq_true m), if_pos rfl]
        congr 1
        refine List.map_congr_left fun k hk => ?_
        have hkm : k ≠ m := fun heq => hm (heq ▸ hk)
        rw [if_neg hkm, List.append_nil]
      · rw [if_neg (by simpa using heq), if_neg heq, List.append_nil,
          ih hnodup (List.mem_of_ne_of_mem (Ne.symm heq) h)]

theorem insert_map_of_notMem (f : String → List α) {n : String} (a : α) (h : n ∉ names) :
    insert n a (names.map fun m => (m, f m)) = (names.map fun m => (m, f m)) ++ [(n, [a])] := by
  induction names with
  | nil => rfl
  | cons m names ih =>
      obtain ⟨hm, hrest⟩ := not_or.mp (List.mem_cons.not.mp h)
      rw [List.map_cons, insert, if_neg (by simpa using Ne.symm hm), ih hrest, List.cons_append]

/-- An added item comes last among the items, and its name last among the names
unless it is there. -/
theorem Lists.add (h : g.Lists key names items) (a : α) :
    (g.add (key a) a).Lists key (names ++ if key a ∈ names then [] else [key a])
      (items ++ [a]) := by
  have hnamed : ∀ b ∈ items, key b ∈ names := h.named
  have hfilter : ∀ n, (items ++ [a]).filter (key · == n) =
      items.filter (key · == n) ++ if n = key a then [a] else [] := by
    intro n
    by_cases hn : n = key a
    · simp [List.filter_append, hn]
    · simp [List.filter_append, hn, Ne.symm hn]
  -- Either the item joins the group of its name, or it opens a group at the end.
  by_cases hmem : key a ∈ names
  · rw [if_pos hmem, List.append_nil]
    refine ⟨h.nodup, ?_, ?_⟩
    · grind
    · simp only [Groups.add, h.groups, insert_map_of_mem _ a h.nodup hmem, hfilter]
  · rw [if_neg hmem]
    refine ⟨?_, by grind, ?_⟩
    · exact h.nodup.append (List.nodup_singleton _) (by simpa using hmem)
    · have hold : names.map (fun n => (n, (items ++ [a]).filter (key · == n))) =
          names.map fun n => (n, items.filter (key · == n)) := by
        refine List.map_congr_left fun n hn => ?_
        have hne : n ≠ key a := fun heq => hmem (heq ▸ hn)
        rw [hfilter, if_neg hne, List.append_nil]
      have hnew : items.filter (key · == key a) = [] :=
        List.filter_eq_nil_iff.mpr fun b hb heq => hmem (beq_iff_eq.mp heq ▸ hnamed b hb)
      rw [Groups.add, h.groups, insert_map_of_notMem _ a hmem, List.map_append, hold,
        List.map_singleton, hfilter, hnew, if_pos rfl, List.nil_append]

/-- A group that is filtered keeps its place. -/
theorem Lists.filterAt (h : g.Lists key names items) (name : String) (keep : α → Bool) :
    (g.filterAt name keep).Lists key names (items.filter fun a => key a != name || keep a) := by
  refine ⟨h.nodup, fun a ha => h.named a (List.mem_filter.mp ha).1, ?_⟩
  rw [Groups.filterAt, h.groups, List.map_map]
  refine List.map_congr_left fun n _ => ?_
  rw [Function.comp_apply, List.filter_filter]
  dsimp only
  by_cases hn : n = name
  · subst hn
    rw [if_pos (beq_self_eq_true n), List.filter_filter]
    refine congrArg (Prod.mk n) (List.filter_congr fun a _ => ?_)
    by_cases ha : key a = n
    · simp [ha]
    · simp [beq_false_of_ne ha]
  · rw [if_neg (by simpa using hn)]
    refine congrArg (Prod.mk n) (List.filter_congr fun a _ => ?_)
    by_cases ha : key a = n
    · simp [ha, hn]
    · simp [beq_false_of_ne ha]

end Groups

namespace KnowledgeBase

/-- A call that changes a knowledge base. -/
inductive Update where
  | addFact (f : Fact)
  | addRule (r : Rule)
  | removeFact (f : Fact)
  | register (predicate : String) (arity : Nat)
  | clear

def update (kb : KnowledgeBase) : Update → KnowledgeBase
  | .addFact f => kb.addFact f
  | .addRule r => kb.addRule r
  | .removeFact f => kb.removeFact f
  | .register predicate arity => kb.register predicate arity
  | .clear => empty

def ofLog (log : List Update) : KnowledgeBase := log.foldl update empty

namespace Update

def isClear : Update → Bool
  | clear => true
  | _ => false

def fact? : Update → Option Fact
  | addFact f => some f
  | _ => none

def rule? : Update → Option Rule
  | addRule r => some r
  | _ => none

def arity? (predicate : String) : Update → Option Nat
  | register p n => if p = predicate then some n else none
  | _ => none

/-- Whether the update removes the facts that are close to a given one. -/
def removes (u : Update) (f : Fact) : Bool :=
  match u with
  | removeFact g => f.close g
  | _ => false

/-- The part of a log after its last `clear`. -/
def sinceClear (log : List Update) : List Update := log.rtakeWhile (!·.isClear)

/-- The added facts that no later update removes, in order of addition. -/
def kept : List Update → List Fact
  | [] => []
  | u :: later => (u.fact?.filter fun f => !later.any (·.removes f)).toList ++ kept later

def survivors (log : List Update) : List Fact := kept (sinceClear log)

/-- The rules that survive a log: a rule is never removed alone. -/
def survivingRules (log : List Update) : List Rule := (sinceClear log).filterMap rule?

/-- The predicates of the facts that were added since the last `clear`, removed facts included, each
at the place of its first fact. -/
def places (log : List Update) : List String :=
  (((sinceClear log).filterMap fact?).map Fact.predicate).eraseDups

/-- The arity that was registered last. -/
def lastArity? (log : List Update) (predicate : String) : Option Nat :=
  ((sinceClear log).filterMap (arity? predicate)).getLast?

theorem sinceClear_concat (log : List Update) (u : Update) :
    sinceClear (log ++ [u]) = if u.isClear then [] else sinceClear log ++ [u] := by
  rw [sinceClear, List.rtakeWhile_concat]
  cases u.isClear <;> rfl

theorem kept_concat (log : List Update) (u : Update) :
    kept (log ++ [u]) = ((kept log).filter fun f => !u.removes f) ++ u.fact?.toList := by
  induction log with
  | nil => cases hfact : u.fact? <;> simp [kept, hfact]
  | cons v log ih =>
      rw [List.cons_append, kept, ih, kept, List.filter_append, List.append_assoc]
      -- Whether the first fact stays is decided by the old updates and by the new one.
      congr 1
      cases hfact : v.fact? with
      | none => rfl
      | some f => cases hkept : log.any (·.removes f) <;> cases hu : u.removes f <;>
          simp [Option.filter, hkept, hu]

end Update

open Update

/-- What can be asked of a knowledge base is what its log says. -/
structure Reflects (kb : KnowledgeBase) (log : List Update) : Prop where
  factsFor : ∀ p, kb.factsFor p = (survivors log).filter (·.predicate == p)
  rulesFor : ∀ p, kb.rulesFor p = (survivingRules log).filter (·.predicate == p)
  allFacts : kb.facts.all = (places log).flatMap fun p => (survivors log).filter (·.predicate == p)
  factsCount : kb.factsCount = (survivors log).length
  rulesCount : kb.rulesCount = (survivingRules log).length
  size : kb.size = (survivors log).length + (survivingRules log).length
  arity : ∀ p, kb.arityOf? p = lastArity? log p
  distinct : (kb.signatures.map Prod.fst).Nodup

/-- The invariant of a growing log behind `Reflects`. -/
structure Recorded (kb : KnowledgeBase) (log : List Update) : Prop where
  facts : kb.facts.Lists Fact.predicate (places log) (survivors log)
  rules : ∃ names, kb.rules.Lists Rule.predicate names (survivingRules log)
  arity : ∀ p, kb.arityOf? p = lastArity? log p
  distinct : (kb.signatures.map Prod.fst).Nodup

theorem recorded_of_isEmpty {log : List Update} (h : sinceClear log = []) : empty.Recorded log := by
  refine ⟨?_, ⟨[], ?_⟩, fun p => ?_, List.nodup_nil⟩
  · rw [places, survivors, h]
    exact Groups.lists_nil _
  · rw [survivingRules, h]
    exact Groups.lists_nil _
  · rw [lastArity?, h]
    rfl

section Concat

variable {log : List Update} {u : Update}

theorem survivors_concat (h : u.isClear = false) :
    survivors (log ++ [u]) = ((survivors log).filter fun f => !u.removes f) ++ u.fact?.toList := by
  rw [survivors, sinceClear_concat, h, if_neg Bool.false_ne_true, kept_concat, survivors]

theorem survivingRules_concat (h : u.isClear = false) :
    survivingRules (log ++ [u]) = survivingRules log ++ u.rule?.toList := by
  rw [survivingRules, sinceClear_concat, h, if_neg Bool.false_ne_true, List.filterMap_append]
  cases hu : u.rule? <;> simp [hu, survivingRules]

theorem places_concat (h : u.isClear = false) :
    places (log ++ [u]) = places log ++
      (u.fact?.toList.map Fact.predicate).filter (decide <| · ∉ places log) := by
  rw [places, sinceClear_concat, h, if_neg Bool.false_ne_true, List.filterMap_append,
    List.map_append, List.eraseDups_append]
  refine congrArg (places log ++ ·) ?_
  cases hu : u.fact? with
  | none => simp [hu, List.removeAll]
  | some f =>
      by_cases hf : f.predicate ∈ ((sinceClear log).filterMap fact?).map Fact.predicate
      · have hplace : f.predicate ∈ places log := List.mem_eraseDups.mpr hf
        simp [hu, List.removeAll, hplace, hf]
      · have hplace : f.predicate ∉ places log := fun hmem => hf (List.mem_eraseDups.mp hmem)
        simp [hu, List.removeAll, hplace, hf, List.eraseDups_cons]

theorem lastArity?_concat (h : u.isClear = false) (p : String) :
    lastArity? (log ++ [u]) p = (u.arity? p).or (lastArity? log p) := by
  rw [lastArity?, sinceClear_concat, h, if_neg Bool.false_ne_true, List.filterMap_append,
    List.getLast?_append, lastArity?]
  cases hu : u.arity? p <;> simp [hu]

end Concat

theorem nodup_register {kb : KnowledgeBase} (h : (kb.signatures.map Prod.fst).Nodup) (p : String)
    (n : Nat) : ((kb.register p n).signatures.map Prod.fst).Nodup := by
  rw [register, List.map_cons, List.nodup_cons]
  refine ⟨?_, (List.filter_sublist.map Prod.fst).nodup h⟩
  rintro hmem
  obtain ⟨entry, hentry, rfl⟩ := List.mem_map.mp hmem
  simpa using (List.mem_filter.mp hentry).2

theorem filter_close (f : Fact) (facts : List Fact) :
    facts.filter (fun g => g.predicate != f.predicate || !g.close f) = facts.filter
      fun g => !g.close f := by
  refine List.filter_congr fun g _ => ?_
  by_cases hg : g.predicate = f.predicate
  · simp [hg]
  · simp [Fact.close, hg]

section Step

variable {kb : KnowledgeBase} {log : List Update} {u : Update}

theorem Recorded.facts_update (h : kb.Recorded log) (hu : u.isClear = false) :
    (kb.update u).facts.Lists Fact.predicate (places (log ++ [u])) (survivors (log ++ [u])) := by
  rw [survivors_concat hu, places_concat hu]
  cases u with
  | addFact f => simpa [update, addFact, fact?, removes, List.filter_cons] using h.facts.add f
  | removeFact f =>
      have hfacts := h.facts.filterAt f.predicate fun g => !g.close f
      rw [filter_close] at hfacts
      simpa [update, removeFact, fact?, removes] using hfacts
  | clear => cases hu
  | _ => simpa [update, addRule, register, fact?, removes] using h.facts

theorem Recorded.rules_update (h : kb.Recorded log) (hu : u.isClear = false) :
    ∃ names, (kb.update u).rules.Lists Rule.predicate names (survivingRules (log ++ [u])) := by
  obtain ⟨names, hrules⟩ := h.rules
  rw [survivingRules_concat hu]
  cases u with
  | addRule r => exact ⟨_, hrules.add r⟩
  | clear => cases hu
  | _ => exact ⟨names, (List.append_nil (survivingRules log)).symm ▸ hrules⟩

theorem Recorded.arityOf?_update (h : kb.Recorded log) (hu : u.isClear = false) (p : String) :
    (kb.update u).arityOf? p = lastArity? (log ++ [u]) p := by
  rw [lastArity?_concat hu, ← h.arity]
  cases u with
  | register q n =>
      rw [update, arityOf?_register, arity?]
      by_cases hq : q = p
      · simp [hq]
      · simp [hq, Ne.symm hq]
  | clear => cases hu
  | _ => rfl

theorem Recorded.nodup_update (h : kb.Recorded log) :
    ((kb.update u).signatures.map Prod.fst).Nodup := by
  cases u with
  | register q n => exact nodup_register h.distinct q n
  | clear => exact List.nodup_nil
  | _ => exact h.distinct

theorem Recorded.update (h : kb.Recorded log) (u : Update) :
    (kb.update u).Recorded (log ++ [u]) := by
  cases hu : u.isClear with
  | false => exact ⟨h.facts_update hu, h.rules_update hu, h.arityOf?_update hu, h.nodup_update⟩
  | true =>
      cases u with
      | clear => exact recorded_of_isEmpty (by rw [sinceClear_concat, hu, if_pos rfl])
      | _ => cases hu

end Step

theorem ofLog_concat (log : List Update) (u : Update) : ofLog (log ++ [u]) = (ofLog log).update u :=
  List.foldl_concat ..

theorem recorded_ofLog (log : List Update) : (ofLog log).Recorded log := by
  -- A log grows at its end, where the newest update is.
  induction log using List.reverseRecOn with
  | nil => exact recorded_of_isEmpty rfl
  | append_singleton log u ih =>
      rw [ofLog_concat]
      exact ih.update u

theorem Recorded.reflects {kb : KnowledgeBase} {log : List Update} (h : kb.Recorded log) :
    kb.Reflects log where
  factsFor := h.facts.get
  rulesFor := h.rules.choose_spec.get
  allFacts := h.facts.all
  factsCount := h.facts.size
  rulesCount := h.rules.choose_spec.size
  size := congrArg₂ (· + ·) h.facts.size h.rules.choose_spec.size
  arity := h.arity
  distinct := h.distinct

/-- The facts that a removal counts are those among the survivors that it drops. -/
theorem Recorded.countFact {kb : KnowledgeBase} {log : List Update}
    (h : kb.Recorded log) (f : Fact) :
    kb.countFact f + (survivors (log ++ [.removeFact f])).length = (survivors log).length := by
  have hcount : kb.countFact f = (survivors log).countP (·.close f) := by
    rw [KnowledgeBase.countFact, h.reflects.factsFor, List.countP_filter]
    refine List.countP_congr fun g _ => ?_
    simp only [Bool.and_eq_true, beq_iff_eq, and_iff_left_iff_imp, Fact.close]
    exact And.left
  have hrest : survivors (log ++ [.removeFact f]) = (survivors log).filter fun g => !g.close f := by
    rw [survivors_concat rfl]
    exact List.append_nil _
  rw [hcount, hrest, List.countP_eq_length_filter]
  simpa [List.countP_eq_length_filter] using
    (List.length_eq_countP_add_countP (fun g : Fact => g.close f)).symm

/-- A knowledge base holds what survives its log, and a removal anywhere in the log counts the facts
by which it makes the knowledge base smaller. -/
theorem ofLog_reflects (log : List Update) :
    (ofLog log).Reflects log ∧
      ∀ before f after, log = before ++ .removeFact f :: after →
        (ofLog before).countFact f + (ofLog (before ++ [.removeFact f])).factsCount =
          (ofLog before).factsCount := by
  refine ⟨(recorded_ofLog log).reflects, fun before f after _ => ?_⟩
  rw [(recorded_ofLog before).reflects.factsCount, (recorded_ofLog _).reflects.factsCount]
  exact (recorded_ofLog before).countFact f

end KnowledgeBase

end Clausal
