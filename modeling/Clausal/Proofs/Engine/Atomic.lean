import Clausal.Proofs.Engine.Changes
import Clausal.Proofs.Grammar.Built
import Clausal.Proofs.Grammar.Printing

/-!
# Failed updates

An update of one clause is checked, stored and then reported with the text of the clause.
Everything that can fail before the store changes leaves it as it was. The report comes after
the change and fails in one case only: the clause was given as a value and has an integer that
is too long to be written. A clause that was read from a text always has one, because its
integers have sixty-four bits.
-/

namespace Clausal

namespace Grammar

/-! ## What is read has a text -/

theorem hasText_numeral {negative : Bool} {digits : String} {t : Term}
    (h : (numeral negative digits).toOption = some t) : t.hasText = true := by
  unfold numeral at h
  by_cases hdigits : digits.toList.all Text.isDigit = true
  · by_cases hlong : Number.digitLimit < digits.toList.length
    · simp [hdigits, hlong, Except.toOption] at h
    · simp only [if_pos hdigits, if_neg hlong] at h
      generalize (if negative = true then -(Text.digitsValue digits.toList : Int)
        else Text.digitsValue digits.toList) = n at h
      split at h
      · next hint =>
        obtain rfl := Option.some.inj h
        exact Number.hasText_of_isInt64 hint
      · obtain rfl := Option.some.inj h
        rfl
  · rw [if_neg hdigits] at h
    obtain rfl := Option.some.inj h
    rfl

theorem compositional_hasText : Compositional fun t => t.hasText = true where
  numeral := hasText_numeral
  string _ := rfl
  atom _ := rfl
  compound f args := by rw [Term.hasText, Term.hasTextAll_eq, List.all_eq_true]

theorem HeadTree.hasText_value {d : HeadTree} {f : Fact} (h : d.value = some f) :
    f.hasText = true := by
  rw [value] at h
  split at h
  · obtain rfl := Option.some.inj h
    rfl
  · next args _ =>
    obtain ⟨ts, hts, rfl⟩ := Option.map_eq_some_iff.mp h
    have hall : ∀ t ∈ ts, t.hasText = true :=
      args.all_value compositional_hasText hts fun _ _ _ => rfl
    rw [Fact.hasText, Term.hasTextAll_eq, List.all_eq_true]
    exact hall

theorem BodyTree.hasText_value {d : BodyTree} {gs : List Goal} (h : d.value = some gs) :
    gs.all Goal.hasText = true := by
  have hall : ∀ g ∈ gs, ∀ a ∈ g.args, a.hasText = true :=
    BodyTree.all_value compositional_hasText h fun _ _ _ => rfl
  refine List.all_eq_true.mpr fun g hg => ?_
  rw [Goal.hasText, Term.hasTextAll_eq, List.all_eq_true]
  exact hall g hg

end Grammar

open Grammar

theorem Fact.hasText_of_parse {text : String} {f : Fact} (h : Fact.parse text = .ok f) :
    f.hasText = true := by
  cases htext : tokenize text with
  | error e => simp [Fact.parse, htext, bind, Except.bind] at h
  | ok ts =>
      have hreads := Fact.readsAll_parse htext (proper_of_tokenize htext)
      rw [h] at hreads
      obtain ⟨d, _, hd⟩ := hreads
      exact d.head.hasText_value hd

theorem Rule.hasText_of_parse {text : String} {r : Rule} (h : Rule.parse text = .ok r) :
    r.hasText = true := by
  cases hneck : mentionsNeck text.toList with
  | false => simp [Rule.parse, hneck] at h
  | true =>
      cases htext : tokenize text with
      | error e => simp [Rule.parse, hneck, htext, bind, Except.bind] at h
      | ok ts =>
          have hreads := Rule.readsAll_parse htext (proper_of_tokenize htext) hneck
          rw [h] at hreads
          obtain ⟨d, _, hd⟩ := hreads
          obtain ⟨f, hf, hd⟩ := Option.bind_eq_some_iff.mp hd
          obtain ⟨gs, hgs, hd⟩ := Option.bind_eq_some_iff.mp hd
          obtain rfl := Option.some.inj hd
          exact Bool.and_eq_true_iff.mpr ⟨d.head.hasText_value hf, d.body.hasText_value hgs⟩

namespace Engine

/-! ## Updates -/

/-- If the action fails, the knowledge base is as it was. A failure to write a clause counts only
for clauses that can be written. -/
def Atomic {α : Type} (written : Prop) (a : Action α) : Prop :=
  ∀ e, Ends a e (fun _ _ => True) fun err e' => (err = .unwritable → written) → e'.kb = e.kb

theorem ends_written {α : Type} {x : Except Fault α} {v : α} {e : Engine} {Q : α → Engine → Prop}
    {R : Fault → Engine → Prop} (hx : x = .ok v) (h : Q v e) : Ends (liftM x) e Q R := by
  rw [hx]
  exact h

section Report

variable {e : Engine} {written : Prop} {text : Except Fault String} {R : Engine → Prop}
  (htext : ∀ err, text = .error err → err = .unwritable ∧ ¬written)

include htext

end Report

theorem Atomic.discard {α : Type} {written : Prop} {a : Action α} (h : Atomic written a) :
    Atomic written (discard a) :=
  fun e => ends_bind ((h e).mono (fun _ _ _ => trivial) fun _ _ h => h)

/-- The exception is needed: the call fails and the rule is stored. -/
example : let c : Call := .addRule ⟨⟨"q", []⟩, [⟨"r", [.int (10 ^ 4300)], true⟩]⟩
    ((c.action.run.run (ofSettings {})).1 matches .error .unwritable) = true ∧
      (ofSettings {}).kb.rulesCount = 0 ∧ ((ofSettings {}).call c).kb.rulesCount = 1 := by
  decide +kernel

end Engine

end Clausal
