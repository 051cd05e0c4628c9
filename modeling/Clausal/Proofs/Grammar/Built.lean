import Clausal.Proofs.Grammar.Tree

/-!
# What is read is built from its tokens

The terms of a syntax tree are put together from its numerals, strings and names. So a property that
passes between a compound term and its arguments holds of everything that is read, if it holds of
constants and of the variables whose names are tokens.
-/

namespace Clausal.Grammar

/-- Numerals, strings and atoms have the property, and a compound term has it if
its arguments do. -/
structure Compositional (Q : Term → Prop) : Prop where
  numeral {negative : Bool} {digits : String} {t : Term}
    (h : (numeral negative digits).toOption = some t) : Q t
  string (text : String) : Q (.str text)
  atom (name : String) : Q (.atom name)
  compound (f : String) (args : List Term) : Q (.compound f args) ↔ ∀ a ∈ args, Q a

/-- All terms that a syntax tree stands for have the property; further operands pass it on from what
is on their left. -/
def Symbol.All (Q : Term → Prop) : (s : Symbol) → s.Meaning → Prop
  | .joined _, t => Q t
  | .operand _, t => Q t
  | .factor, t => Q t
  | .more _, join => ∀ left : Term, Q left → Q (join left)
  | .arguments, ts => ∀ a ∈ ts, Q a
  | .moreArguments, ts => ∀ a ∈ ts, Q a

variable {Q : Term → Prop}

theorem Compositional.nameApplied (hQ : Compositional Q) (name : String) {args : List Term}
    (h : ∀ a ∈ args, Q a) : Q (nameApplied name args) := by
  cases args with
  | nil => exact hQ.atom name
  | cons a args => exact (hQ.compound name _).mpr h

theorem Tree.all_value (hQ : Compositional Q) {s : Symbol} (d : Tree s) {v : s.Meaning}
    (h : d.value = some v) (hvar : ∀ t ∈ d.tokens, t.kind = .name → Q (.var t.text)) :
    s.All Q v := by
  -- The names of a part are among the tokens of the whole.
  induction d with
  | joined first more ihfirst ihmore =>
      obtain ⟨join, hjoin, h⟩ := Option.bind_eq_some_iff.mp h
      obtain ⟨left, hleft, h⟩ := Option.bind_eq_some_iff.mp h
      obtain rfl := Option.some.inj h
      have hfirst : Q left := ihfirst hleft fun t ht => hvar t (List.mem_append_left _ ht)
      exact ihmore hjoin (fun t ht => hvar t (List.mem_append_right _ ht)) left hfirst
  | product d ih => exact ih h hvar
  | factor d ih => exact ih h hvar
  | done =>
      obtain rfl := Option.some.inj h
      exact fun left hleft => hleft
  | operator op hop p right more ihright ihmore =>
      obtain ⟨r, hr, h⟩ := Option.bind_eq_some_iff.mp h
      obtain ⟨join, hjoin, h⟩ := Option.bind_eq_some_iff.mp h
      obtain rfl := Option.some.inj h
      intro left hleft
      have hright : Q r := ihright hr fun t ht => hvar t (by simp [ht])
      refine ihmore hjoin (fun t ht => hvar t (by simp [ht])) _ ((hQ.compound op _).mpr ?_)
      simp [hleft, hright]
  | parenthesized p d q ih => exact ih h fun t ht => hvar t (by simp [ht])
  | negative p digits q => exact hQ.numeral h
  | number digits p => exact hQ.numeral h
  | string text p =>
      obtain rfl := Option.some.inj h
      exact hQ.string _
  | var name hname p =>
      obtain rfl := Option.some.inj h
      exact hvar ⟨.name, name, p⟩ List.mem_cons_self rfl
  | constant name hname p =>
      obtain rfl := Option.some.inj h
      exact hQ.atom name
  | applied name hname p args ih =>
      obtain ⟨ts, hts, rfl⟩ := Option.map_eq_some_iff.mp h
      exact hQ.nameApplied name (ih hts fun t ht => hvar t (List.mem_cons_of_mem _ ht))
  | prefixed op p args ih =>
      obtain ⟨ts, hts, rfl⟩ := Option.map_eq_some_iff.mp h
      exact (hQ.compound _ ts).mpr (ih hts fun t ht => hvar t (List.mem_cons_of_mem _ ht))
  | noArguments p q =>
      obtain rfl := Option.some.inj h
      exact fun a ha => by simp at ha
  | arguments p first more q ihfirst ihmore =>
      obtain ⟨t, ht, h⟩ := Option.bind_eq_some_iff.mp h
      obtain ⟨ts, hts, h⟩ := Option.bind_eq_some_iff.mp h
      obtain rfl := Option.some.inj h
      have hfirst : Q t := ihfirst ht fun u hu => hvar u (by simp [hu])
      have hmore : ∀ a ∈ ts, Q a := ihmore hts fun u hu => hvar u (by simp [hu])
      exact List.forall_mem_cons.mpr ⟨hfirst, hmore⟩
  | noMore =>
      obtain rfl := Option.some.inj h
      exact fun a ha => by simp at ha
  | comma p next more ihnext ihmore =>
      obtain ⟨t, ht, h⟩ := Option.bind_eq_some_iff.mp h
      obtain ⟨ts, hts, h⟩ := Option.bind_eq_some_iff.mp h
      obtain rfl := Option.some.inj h
      have hnext : Q t := ihnext ht fun u hu => hvar u (by simp [hu])
      have hmore : ∀ a ∈ ts, Q a := ihmore hts fun u hu => hvar u (by simp [hu])
      exact List.forall_mem_cons.mpr ⟨hnext, hmore⟩

variable (hQ : Compositional Q)

include hQ

theorem StatementTree.all_value {d : StatementTree} {negated : Bool} {g : Goal}
    (h : d.value negated = some g) (hvar : ∀ t ∈ d.tokens, t.kind = .name → Q (.var t.text)) :
    ∀ a ∈ g.args, Q a := by
  obtain ⟨left, hleft, h⟩ := Option.bind_eq_some_iff.mp h
  have hl : Q left := d.left.all_value hQ hleft fun t ht => hvar t (List.mem_append_left _ ht)
  split at h
  · next r heq =>
    obtain ⟨right, hright, h⟩ := Option.bind_eq_some_iff.mp h
    obtain rfl := Option.some.inj h
    have hr : Q right := r.right.all_value hQ hright fun t ht =>
      hvar t (List.mem_append_right _ (by simp [heq, RelationTree.tokens, ht]))
    simp [hl, hr]
  · obtain rfl := Option.some.inj h
    exact (hQ.compound _ _).mp hl
  · obtain rfl := Option.some.inj h
    simp
  · cases h

theorem GoalTree.all_value {d : GoalTree} {g : Goal} (h : d.value = some g)
    (hvar : ∀ t ∈ d.tokens, t.kind = .name → Q (.var t.text)) : ∀ a ∈ g.args, Q a :=
  StatementTree.all_value hQ h fun t ht => hvar t (List.mem_append_right _ ht)

theorem all_moreGoals {more : List (Nat × GoalTree)} {gs : List Goal}
    (h : more.mapM (fun (_, d) => d.value) = some gs)
    (hvar : ∀ t ∈ BodyTree.moreTokens more, t.kind = .name → Q (.var t.text)) :
    ∀ g ∈ gs, ∀ a ∈ g.args, Q a := by
  induction more generalizing gs with
  | nil =>
      obtain rfl := Option.some.inj h
      simp
  | cons d more ih =>
      rw [List.mapM_cons] at h
      obtain ⟨g, hg, h⟩ := Option.bind_eq_some_iff.mp h
      obtain ⟨gs, hgs, h⟩ := Option.bind_eq_some_iff.mp h
      obtain rfl := Option.some.inj h
      have hfirst := GoalTree.all_value hQ hg fun t ht => hvar t (by simp [BodyTree.moreTokens, ht])
      have hrest := ih hgs fun t ht => hvar t (List.mem_append_right _ ht)
      exact List.forall_mem_cons.mpr ⟨hfirst, hrest⟩

theorem BodyTree.all_value {d : BodyTree} {gs : List Goal} (h : d.value = some gs)
    (hvar : ∀ t ∈ d.tokens, t.kind = .name → Q (.var t.text)) : ∀ g ∈ gs, ∀ a ∈ g.args, Q a := by
  obtain ⟨g, hg, h⟩ := Option.bind_eq_some_iff.mp h
  obtain ⟨more, hmore, h⟩ := Option.bind_eq_some_iff.mp h
  obtain rfl := Option.some.inj h
  have hfirst := GoalTree.all_value hQ hg fun t ht => hvar t (List.mem_append_left _ ht)
  have hrest := all_moreGoals hQ hmore fun t ht => hvar t (List.mem_append_right _ ht)
  exact List.forall_mem_cons.mpr ⟨hfirst, hrest⟩

end Clausal.Grammar
