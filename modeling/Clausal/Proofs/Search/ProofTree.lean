import Clausal.Proofs.Search.Derivation
import Mathlib.Data.List.InsertIdx

/-!
# Proof trees

A proof tree records a derivation: at each node the place of the clause among those of the predicate
and the substitution that it is used under, and below it the proofs of its body. Without the
substitutions it is a skeleton, which says only which clauses are used where. Skeletons are the same
for all orders in which the goals of a state can be resolved.

What a tree asks of goals with built-in predicates is a parameter.
-/

namespace Clausal

/-! ## Trees -/

inductive ProofTree (α : Type) where
  | node (label : α) (premises : List (ProofTree α))

namespace ProofTree

variable {α β γ : Type}

@[elab_as_elim, induction_eliminator]
theorem induct {motive : ProofTree α → Prop}
    (node : ∀ a ts, (∀ t ∈ ts, motive t) → motive (.node a ts)) (t : ProofTree α) : motive t := by
  refine @ProofTree.rec α motive (fun ts => ∀ t ∈ ts, motive t) node ?_ ?_ t
  · intro t ht
    simp at ht
  · intro t ts ht hts u hu
    rcases List.mem_cons.mp hu with rfl | hu
    · exact ht
    · exact hts u hu

mutual

def map (f : α → β) : ProofTree α → ProofTree β
  | .node a ts => .node (f a) (mapAll f ts)

def mapAll (f : α → β) : List (ProofTree α) → List (ProofTree β)
  | [] => []
  | t :: ts => map f t :: mapAll f ts

end

theorem map_node (f : α → β) (a : α) (ts : List (ProofTree α)) :
    (node a ts).map f = .node (f a) (ts.map (map f)) := by
  have hall : ∀ us : List (ProofTree α), mapAll f us = us.map (map f) := by
    intro us
    induction us with
    | nil => rfl
    | cons u us ih => rw [mapAll, ih, List.map_cons]
  rw [map, hall]

def label : ProofTree α → α
  | .node a _ => a

/-- Makes the first trees of a list the premises of a new one, which is put at a place among the
others. -/
def graft (i : Nat) (a : α) (m : Nat) (ts : List (ProofTree α)) : List (ProofTree α) :=
  (ts.drop m).insertIdx i (.node a (ts.take m))

theorem getElem?_graft {i m : Nat} {ts : List (ProofTree α)} (h : i ≤ (ts.drop m).length) (a : α) :
    (graft i a m ts)[i]? = some (.node a (ts.take m)) := by
  rw [graft, List.getElem?_insertIdx_self, if_pos h]

theorem eraseIdx_graft (i : Nat) (a : α) (m : Nat) (ts : List (ProofTree α)) :
    (graft i a m ts).eraseIdx i = ts.drop m :=
  List.eraseIdx_insertIdx_self _

theorem map_graft (f : α → β) (i : Nat) (a : α) (m : Nat) (ts : List (ProofTree α)) :
    (graft i a m ts).map (map f) = graft i (f a) m (ts.map (map f)) := by
  rw [graft, List.map_insertIdx, map_node, graft, List.map_drop, List.map_take]

/-- Every list with a tree at the place comes from grafting. -/
theorem graft_of_getElem? {i : Nat} {a : α} {us ts : List (ProofTree α)}
    (h : ts[i]? = some (.node a us)) : graft i a us.length (us ++ ts.eraseIdx i) = ts := by
  obtain ⟨hi, hget⟩ := List.getElem?_eq_some_iff.mp h
  rw [graft, List.drop_left, List.take_left, ← hget, List.insertIdx_eraseIdx_getElem hi]

/-- What becomes a grafted list when labels are replaced is grafted itself. -/
theorem exists_graft_of_map_eq {f : α → β} {i m : Nat} {b : β} {ts : List (ProofTree α)}
    {us : List (ProofTree β)} (hm : m ≤ us.length) (hi : i ≤ (us.drop m).length)
    (h : ts.map (map f) = graft i b m us) :
    ∃ a vs, f a = b ∧ vs.map (map f) = us ∧ ts = graft i a m vs := by
  have hroot := getElem?_graft hi b
  rw [← h, List.getElem?_map, Option.map_eq_some_iff] at hroot
  obtain ⟨⟨a, vs⟩, ha, hmap⟩ := hroot
  rw [map_node, node.injEq] at hmap
  have hlen : vs.length = m := by
    have hlength := congrArg List.length hmap.2
    rwa [List.length_map, List.length_take, Nat.min_eq_left hm] at hlength
  refine ⟨a, vs ++ ts.eraseIdx i, hmap.1, ?_, ?_⟩
  · rw [List.map_append, hmap.2, ← List.eraseIdx_map, h, eraseIdx_graft, List.take_append_drop]
  · rw [← hlen]
    exact (graft_of_getElem? ha).symm

theorem graft_injective {i j k m : Nat} {ts us : List (ProofTree Nat)}
    (hts : i ≤ (ts.drop m).length) (hus : i ≤ (us.drop m).length)
    (h : graft i j m ts = graft i k m us) : ts = us := by
  have htake := getElem?_graft hts j
  rw [h, getElem?_graft hus k, Option.some.injEq, node.injEq] at htake
  have hdrop := eraseIdx_graft i j m ts
  rw [h, eraseIdx_graft] at hdrop
  rw [← List.take_append_drop m ts, ← List.take_append_drop m us, htake.2, hdrop]

end ProofTree

/-- Lists are related element by element if the elements at one place are, and the others. -/
theorem forall₂_eraseIdx_iff {α β : Type} {R : α → β → Prop} {as : List α} {bs : List β} {i : Nat}
    {b : β} (hb : bs[i]? = some b) :
    List.Forall₂ R as bs ↔
      ∃ a, as[i]? = some a ∧ R a b ∧ List.Forall₂ R (as.eraseIdx i) (bs.eraseIdx i) := by
  induction i generalizing as bs with
  | zero =>
      obtain ⟨bs, rfl⟩ : ∃ bs', bs = b :: bs' := by
        cases bs with
        | nil => simp at hb
        | cons b' bs => exact ⟨bs, by simpa using hb⟩
      cases as <;> simp
  | succ i ih =>
      cases bs with
      | nil => simp at hb
      | cons b' bs =>
          cases as with
          | nil => simp
          | cons a as =>
              rw [List.forall₂_cons, ih (by simpa using hb)]
              simp only [List.getElem?_cons_succ, List.eraseIdx_cons_succ, List.forall₂_cons]
              constructor
              · rintro ⟨hab, a', ha', hR, hrest⟩
                exact ⟨a', ha', hR, hab, hrest⟩
              · rintro ⟨a', ha', hR, hab, hrest⟩
                exact ⟨hab, a', ha', hR, hrest⟩

theorem exists_left_of_mem {α β : Type} {R : α → β → Prop} {as : List α} {bs : List β}
    (h : List.Forall₂ R as bs) {b : β} (hb : b ∈ bs) : ∃ a ∈ as, R a b := by
  obtain ⟨i, hi⟩ := List.mem_iff_getElem?.mp hb
  obtain ⟨a, ha, hab, _⟩ := (forall₂_eraseIdx_iff hi).mp h
  exact ⟨a, List.mem_of_getElem? ha, hab⟩

theorem ProofTree.forall₂_graft_iff {α β : Type} {R : ProofTree α → β → Prop}
    {ts : List (ProofTree α)} {bs : List β} {i m : Nat} {b : β} (hb : bs[i]? = some b)
    (hlen : ts.length = m + (bs.eraseIdx i).length) (a : α) :
    List.Forall₂ R (graft i a m ts) bs ↔
      R (.node a (ts.take m)) b ∧ List.Forall₂ R (ts.drop m) (bs.eraseIdx i) := by
  have hi : i ≤ (ts.drop m).length := by
    obtain ⟨hlt, _⟩ := List.getElem?_eq_some_iff.mp hb
    rw [List.length_drop, hlen, List.length_eraseIdx_of_lt hlt]
    omega
  rw [forall₂_eraseIdx_iff hb, getElem?_graft hi, eraseIdx_graft]
  simp

/-! ## Goals with built-in predicates -/

theorem Bindings.image_empty : (∅ : Bindings).image = Term.var :=
  funext fun x => image_of_unbound (get?_empty x)

namespace Goal

/-- A built-in predicate holds of the arguments as they stand. -/
def Holds (g : Goal) : Prop :=
  ∃ l r, g.args = [l, r] ∧
    (g.predicate = "=" ∧ l = r ∨
      (∃ c m n, Comparison.ofSymbol? g.predicate = some c ∧ l.number? = some m ∧
        r.number? = some n ∧ c.holds m n = true) ∨
      g.predicate = "is" ∧ ∃ n, (∅ : Bindings).evaluate r = .ok n ∧ l = n.normalize.toTerm)

/-- A goal that is not ready as it stands. -/
def Waits (g : Goal) : Prop := Search.isReady? g ∅ = some false

end Goal

namespace Search

variable {b : Bindings} (hb : b.Acyclic) {g : Goal} {l r : Term}

include hb

/-- Whether a goal is ready is seen on its instance. -/
theorem isReady?_eq (g : Goal) : isReady? g b = isReady? (g.apply b.image) ∅ := by
  have hargs : ∀ ts : List Term, (∅ : Bindings).substituteAll? (ts.map (Term.apply b.image)) =
      b.substituteAll? ts := by
    intro ts
    rw [Bindings.acyclic_empty.substituteAll?_eq, hb.substituteAll?_eq, Bindings.image_empty,
      List.map_map]
    exact congrArg some (List.map_congr_left fun t _ => Term.apply_var_eq _)
  have hterm : ∀ t : Term, (∅ : Bindings).substitute? (t.apply b.image) = b.substitute? t := by
    intro t
    rw [Bindings.acyclic_empty.substitute?_eq, hb.substitute?_eq, Bindings.image_empty,
      Term.apply_var_eq]
  obtain ⟨p, args, negated⟩ := g
  rw [isReady?, isReady?]
  simp only [Goal.apply, Goal.arity, List.length_map, hargs]
  congr 1
  cases p == "is" with
  | false => rfl
  | true =>
      rcases args with _ | ⟨a, _ | ⟨e, _ | ⟨c, args⟩⟩⟩
      · rfl
      · rfl
      · simp only [List.map_cons, List.map_nil, hterm]
      · rfl

theorem isReady?_comparison {c : Comparison}
    (hc : Comparison.ofSymbol? g.predicate = some c) (hargs : g.args = [l, r]) :
    isReady? g b = some ((l.apply b.image).isGround && (r.apply b.image).isGround) := by
  have hcond :
      (g.negated || (Comparison.ofSymbol? g.predicate).isSome && g.arity == Builtin.arity) =
      true := by
    simp [hc, Goal.arity, hargs, Builtin.arity]
  rw [isReady?, if_pos hcond, hb.substituteAll?_eq, hargs]
  simp [Term.isGroundAll]

theorem isReady?_is (hneg : g.negated = false) (hp : g.predicate = "is") (hargs : g.args = [l, r]) :
    isReady? g b = some (r.apply b.image).isGround := by
  have hcond :
      (g.negated || (Comparison.ofSymbol? g.predicate).isSome && g.arity == Builtin.arity) =
      false := by
    simp [hneg, hp, Comparison.ofSymbol?]
  rw [isReady?, if_neg (by simp [hcond]), hargs, hp]
  simp [hb.substitute?_eq]

omit hb in
theorem isReady?_equal (hneg : g.negated = false) (hp : g.predicate = "=") (b : Bindings) :
    isReady? g b = some true := by
  have hcond :
      (g.negated || (Comparison.ofSymbol? g.predicate).isSome && g.arity == Builtin.arity) =
      false := by
    simp [hneg, hp, Comparison.ofSymbol?]
  rw [isReady?, if_neg (by simp [hcond]), hp]
  split
  · next h _ => simp at h
  · rfl

end Search

theorem Goal.Holds.not_waits {g : Goal} (h : g.Holds) (hneg : g.negated = false) : ¬ g.Waits := by
  have hsame : ∀ t : Term, t.apply (∅ : Bindings).image = t := fun t => by
    rw [Bindings.image_empty, Term.apply_var_eq]
  obtain ⟨l, r, hargs, ⟨hp, _⟩ | ⟨c, m, n, hc, hm, hn, _⟩ | ⟨hp, n, hn, _⟩⟩ := h
  · rw [Waits, Search.isReady?_equal hneg hp]
    simp
  · rw [Waits, Search.isReady?_comparison Bindings.acyclic_empty hc hargs, hsame, hsame,
      Term.isGround_of_number? hm, Term.isGround_of_number? hn]
    simp
  · rw [Waits, Search.isReady?_is Bindings.acyclic_empty hneg hp hargs, hsame,
      Bindings.isGround_of_evaluate_empty hn]
    simp

/-- Only built-in goals wait, unless they are negated. -/
theorem Goal.Waits.isBuiltin {g : Goal} (h : g.Waits) (hneg : g.negated = false) :
    Clausal.isBuiltin g.predicate = true := by
  rw [Waits, Search.isReady?, hneg, Bool.false_or] at h
  split at h
  · next hcond =>
    rw [Bool.and_eq_true, Option.isSome_iff_exists] at hcond
    obtain ⟨⟨c, hc⟩, _⟩ := hcond
    exact isBuiltin_of_ofSymbol? hc
  · split at h
    · next his _ =>
      rw [beq_iff_eq.mp his]
      rfl
    · simp at h

/-! ## Proofs -/

/-- The clauses of a predicate in the order in which they are tried. A fact is a
rule without body. -/
def KnowledgeBase.clausesFor (kb : KnowledgeBase) (p : String) : List Rule :=
  (kb.factsFor p).map (fun f => ⟨f, []⟩) ++ kb.rulesFor p

/-- Which clauses are used where. -/
abbrev Skeleton := ProofTree Nat

/-- Which clauses are used where, and under which substitutions. -/
abbrev Proof := ProofTree (Nat × (String → Term))

def Proof.skeleton (D : Proof) : Skeleton := D.map Prod.fst

section Proves

variable (kb : KnowledgeBase) (N : Goal → Prop)

mutual

/-- A proof of a goal from the clauses of a knowledge base. Goals with built-in predicates have
leaves, and the parameter says which of them are accepted. -/
def Proves : Proof → Goal → Prop
  | .node (j, σ) Ds, g =>
    g.negated = false ∧
      if isBuiltin g.predicate then j = 0 ∧ Ds = [] ∧ N g
      else ∃ r, (kb.clausesFor g.predicate)[j]? = some r ∧ r.head.args.map (Term.apply σ) = g.args ∧
        ProvesAll Ds (r.body.map (Goal.apply σ))

def ProvesAll : List Proof → List Goal → Prop
  | [], [] => True
  | D :: Ds, g :: gs => Proves D g ∧ ProvesAll Ds gs
  | _, _ => False

end

end Proves

namespace Proves

variable {kb : KnowledgeBase} {N N' : Goal → Prop} {D : Proof} {g : Goal}

theorem all_iff {Ds : List Proof} {gs : List Goal} :
    ProvesAll kb N Ds gs ↔ List.Forall₂ (Proves kb N) Ds gs := by
  induction Ds generalizing gs with
  | nil => cases gs <;> simp [ProvesAll]
  | cons D Ds ih => cases gs <;> simp [ProvesAll, ih]

theorem builtin_iff (hg : isBuiltin g.predicate = true) :
    Proves kb N D g ↔ (∃ σ, D = .node (0, σ) []) ∧ g.negated = false ∧ N g := by
  obtain ⟨⟨j, σ⟩, Ds⟩ := D
  rw [Proves, if_pos hg]
  constructor
  · rintro ⟨hneg, rfl, rfl, hN⟩
    exact ⟨⟨σ, rfl⟩, hneg, hN⟩
  · rintro ⟨⟨σ', heq⟩, hneg, hN⟩
    obtain ⟨⟨rfl, _⟩, rfl⟩ : (j = 0 ∧ σ = σ') ∧ Ds = [] := by simpa using heq
    exact ⟨hneg, rfl, rfl, hN⟩

theorem user_iff (hg : isBuiltin g.predicate = false) {j : Nat} {σ : String → Term}
    {Ds : List Proof} :
    Proves kb N (.node (j, σ) Ds) g ↔ g.negated = false ∧ ∃ r,
      (kb.clausesFor g.predicate)[j]? = some r ∧ r.head.args.map (Term.apply σ) = g.args ∧
        List.Forall₂ (Proves kb N) Ds (r.body.map (Goal.apply σ)) := by
  rw [Proves, if_neg (by simp [hg])]
  simp only [all_iff]

/-- The clause is known from its number. -/
theorem clause_iff (hg : isBuiltin g.predicate = false) {j : Nat} {r : Rule}
    (hr : (kb.clausesFor g.predicate)[j]? = some r) {σ : String → Term} {Ds : List Proof} :
    Proves kb N (.node (j, σ) Ds) g ↔ g.negated = false ∧ r.head.args.map (Term.apply σ) = g.args ∧
      List.Forall₂ (Proves kb N) Ds (r.body.map (Goal.apply σ)) := by
  rw [user_iff hg]
  constructor
  · rintro ⟨hneg, r', hr', h⟩
    obtain rfl := Option.some.inj (hr'.symm.trans hr)
    exact ⟨hneg, h⟩
  · rintro ⟨hneg, h⟩
    exact ⟨hneg, r, hr, h⟩

/-- What has a proof is derivable by exact instances. -/
theorem derivable (h : Proves kb Goal.Holds D g) : Derivable kb Eq g := by
  induction D using ProofTree.induct generalizing g with
  | node label Ds ih =>
      obtain ⟨j, σ⟩ := label
      cases hbuiltin : isBuiltin g.predicate with
      | true =>
          obtain ⟨_, hneg, l, r, hargs, hcases⟩ := (builtin_iff hbuiltin).mp h
          obtain ⟨p, args, negated⟩ := g
          obtain rfl : negated = false := hneg
          obtain rfl : args = [l, r] := hargs
          rcases hcases with ⟨hp, hlr⟩ | ⟨c, m, n, hc, hm, hn, hholds⟩ | ⟨hp, n, hn, hl⟩
          · obtain rfl : p = "=" := hp
            exact .equal hlr
          · exact .compare hc hm hn hholds
          · obtain rfl : p = "is" := hp
            exact .value hn hl
      | false =>
          obtain ⟨hneg, r, hr, hhead, hbody⟩ := (user_iff hbuiltin).mp h
          obtain ⟨p, args, negated⟩ := g
          obtain rfl : negated = false := hneg
          have hargs : List.Forall₂ Eq (r.head.args.map (Term.apply σ)) args := by
            rw [List.forall₂_eq_eq_eq]
            exact hhead
          rcases List.mem_append.mp (List.mem_of_getElem? hr) with hfact | hrule
          · obtain ⟨f, hf, rfl⟩ := List.mem_map.mp hfact
            exact .fact hbuiltin hf hargs
          · refine .rule hbuiltin hrule hargs fun b hb => ?_
            obtain ⟨D, hD, hproves⟩ := exists_left_of_mem hbody (List.mem_map_of_mem hb)
            exact ih D hD hproves

end Proves

end Clausal
