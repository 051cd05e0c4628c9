import Clausal.Proofs.Engine.Changes
import Clausal.Proofs.Engine.Frame
import Clausal.Proofs.Grammar.Built
import Clausal.Proofs.Grammar.Patterns
import Clausal.Proofs.Search.Unbound

/-!
# Answers to queries

A query is read, searched for, and each of its solutions is shown as a row with the text of the full
value of every variable. A variable that is left unbound is shown by the name of a variable of the
query, or by the name that a hidden variable of a clause has in a copy of the clause. The names of a
query have no `#`, so the two can be told apart.
-/

namespace Clausal

/-! ## Names that are read -/

namespace Grammar

theorem hashFree_of_mem {text : String} {ts : List Token} (h : tokenize text = .ok ts) {t : Token}
    (ht : t ∈ ts) (hkind : t.kind = .name) : HashFree t.text := by
  obtain ⟨after, m, _, hlexeme, htext⟩ := exists_lexeme_of_mem h ht
  rw [hkind] at hlexeme
  obtain ⟨pattern, hmem, hmatch⟩ := exists_pattern_of_lexeme? hlexeme
  obtain rfl : pattern = name? := by simpa [patterns] using hmem
  obtain ⟨_, ⟨c, hc, rfl⟩, w, hw, rfl⟩ := Language.mem_mul.mp (recognizes_name.longest hmatch).mem
  rw [Bool.and_eq_true] at hc
  have hword : ∀ d ∈ c :: w, Text.isWordChar d = true :=
    List.forall_mem_cons.mpr ⟨hc.1, Pattern.mem_star_oneOf.mp hw⟩
  rw [HashFree, htext, String.toList_ofList]
  exact fun hhash => absurd (hword _ hhash) (by decide)

theorem vars_of_numeral {negative : Bool} {digits : String} {t : Term}
    (h : (numeral negative digits).toOption = some t) : t.vars = [] := by
  unfold numeral at h
  dsimp only at h
  generalize (if negative = true then -(Text.digitsValue digits.toList : Int)
    else Text.digitsValue digits.toList) = n at h
  split at h
  · split at h
    · cases h
    · split at h
      all_goals
        obtain rfl := Option.some.inj h
        rfl
  · obtain rfl := Option.some.inj h
    rfl

theorem compositional_within (R : String → Prop) : Compositional (Term.Within R) where
  numeral h := by simp [Term.Within, vars_of_numeral h]
  string _ := by simp [Term.Within, Term.vars]
  atom _ := by simp [Term.Within, Term.vars]
  compound f args := by
    simp only [Term.Within, Term.mem_vars_compound]
    constructor
    · intro h a ha x hx
      exact h x ⟨a, ha, hx⟩
    · rintro h x ⟨a, ha, hx⟩
      exact h a ha x hx

end Grammar

open Grammar in
/-- The variables of a query that was read have no `#`. -/
theorem Goal.hashFree_of_parseQuery {text : String} {goals : List Goal}
    (h : Goal.parseQuery text = .ok goals) : ∀ g ∈ goals, g.All Term.HashFree := by
  cases htext : tokenize text with
  | error e => simp [Goal.parseQuery, htext, bind, Except.bind] at h
  | ok ts =>
      have hne : ts ≠ [] := by
        rintro rfl
        simp [Goal.parseQuery, htext, bind, Except.bind] at h
      have hreads := Goal.readsAll_parseQuery htext (proper_of_tokenize htext) hne
      rw [h] at hreads
      obtain ⟨d, rfl, hd⟩ := hreads
      refine BodyTree.all_value (compositional_within HashFree) hd fun t ht hkind => ?_
      exact Term.within_var.mpr (hashFree_of_mem htext (List.mem_append_left _ ht) hkind)

/-! ## Rows -/

section Rows

variable {α β : Type}

theorem forall₂_of_mapM {f : α → Except Fault β} {vs : List α} {ws : List β}
    (h : vs.mapM f = .ok ws) :
    List.Forall₂ (fun v w => f v = .ok w) vs ws := by
  induction vs generalizing ws with
  | nil =>
      obtain rfl := Except.ok.inj h
      exact .nil
  | cons v vs ih =>
      rw [List.mapM_cons] at h
      cases hv : f v with
      | error e => simp [hv, bind, Except.bind] at h
      | ok w =>
          cases hvs : vs.mapM f with
          | error e => simp [hv, hvs, bind, Except.bind] at h
          | ok ws' =>
              obtain rfl : w :: ws' = ws :=
                by simpa [hv, hvs, bind, Except.bind, pure, Except.pure] using h
              exact .cons hv (ih hvs)

theorem pair_eq_ok_iff {m : Except Fault β} {x : String} {e : String × β} :
    (do return (x, ← m) : Except Fault (String × β)) = .ok e ↔ e.1 = x ∧ m = .ok e.2 := by
  cases m with
  | error err => simp [bind, Except.bind]
  | ok v =>
      obtain ⟨y, w⟩ := e
      simp [bind, Except.bind, pure, Except.pure, eq_comm]

theorem lookup_of_mapM {f : String → Except Fault β} {xs : List String} {row : List (String × β)}
    (h : xs.mapM (fun x => do return (x, ← f x)) = .ok row) {x : String} (hx : x ∈ xs) :
    ∃ v, f x = .ok v ∧ row.lookup x = some v := by
  have hrow := forall₂_of_mapM h
  clear h
  induction hrow with
  | nil => simp at hx
  | @cons y e xs row hfirst _ ih =>
      obtain ⟨rfl, hvalue⟩ := pair_eq_ok_iff.mp hfirst
      rw [List.lookup_cons]
      by_cases hxe : x = e.1
      · subst hxe
        exact ⟨e.2, hvalue, by simp⟩
      · rw [beq_false_of_ne hxe]
        exact ih ((List.mem_cons.mp hx).resolve_left hxe)

theorem lookup_of_mapM_values {f : α → Except Fault β} {es : List (String × α)}
    {row : List (String × β)}
    (h : es.mapM (fun e => do return (e.1, ← f e.2)) = .ok row) {x : String}
    {v : α} (hx : es.lookup x = some v) : ∃ w, f v = .ok w ∧ row.lookup x = some w := by
  have hrow := forall₂_of_mapM h
  clear h
  induction hrow with
  | nil => simp at hx
  | @cons d e es row hfirst _ ih =>
      obtain ⟨hname, hvalue⟩ := pair_eq_ok_iff.mp hfirst
      rw [List.lookup_cons] at hx ⊢
      rw [hname]
      by_cases hxd : x = d.1
      · subst hxd
        obtain rfl : d.2 = v := by simpa using hx
        exact ⟨e.2, hvalue, by simp⟩
      · rw [beq_false_of_ne hxd] at hx ⊢
        exact ih hx

end Rows

/-- A row shows the texts of the full values. -/
theorem Solution.lookup_of_render {s : Solution} {row : List (String × String)}
    (h : s.render = .ok row) {x : String} (hx : x ∈ s.vars) :
    ∃ u w, s.resolved x = .ok u ∧ u.write = .ok w ∧ row.lookup x = some w := by
  cases hvalues : s.values with
  | error err => simp [render, hvalues, bind, Except.bind] at h
  | ok values =>
      have hrow : values.mapM (fun e => do return (e.1, ← e.2.write)) = .ok row := by
        simpa only [render, hvalues, bind, Except.bind] using h
      obtain ⟨u, hu, hlookup⟩ := lookup_of_mapM hvalues (List.mem_eraseDups.mpr hx)
      obtain ⟨w, hw, hshown⟩ := lookup_of_mapM_values hrow hlookup
      exact ⟨u, w, hu, hw, hshown⟩

theorem Solution.image_of_resolved {s : Solution} {x : String} {t : Term}
    (h : s.resolved x = .ok t) :
    s.bindings.image x = t := by
  rw [resolved] at h
  split at h
  · next u hu =>
    obtain rfl := Except.ok.inj h
    rw [Bindings.image, hu, Option.getD_some]
  · cases h

/-- The solutions of a query are the results of the search from no bindings. -/
theorem Evaluator.exists_solve_of_query {ev : Evaluator} {goals : List Goal}
    {solutions : List Solution} (h : (ev.query goals).1 = .ok solutions) :
    ∃ results, (ev.solve goals ∅).1 = .ok results ∧
      results.map (⟨·, Solution.variablesOf goals⟩) = solutions := by
  change (ev.solve goals ∅).1.map _ = .ok solutions at h
  cases hsolve : (ev.solve goals ∅).1 with
  | error err => simp [hsolve, Except.map] at h
  | ok results => exact ⟨results, rfl, by simpa [hsolve, Except.map] using h⟩

namespace Engine

theorem ends_of_forall {α : Type} {a : Action α} {e : Engine} {Q : α → Engine → Prop}
    {R : Fault → Engine → Prop} (hQ : ∀ v e', Q v e') (hR : ∀ err e', R err e') : Ends a e Q R := by
  rw [Ends]
  split
  · exact hQ _ _
  · exact hR _ _

theorem ends_mapM {α β : Type} {f : α → Except Fault β} {vs : List α} {e : Engine}
    {Q : List β → Engine → Prop} {R : Fault → Engine → Prop}
    (hok : ∀ ws, vs.mapM f = .ok ws → Q ws e) (herror : ∀ err, R err e) :
    Ends (vs.mapM fun v => (liftM (f v) : Action β)) e Q R := by
  induction vs generalizing Q with
  | nil => exact hok [] rfl
  | cons v vs ih =>
      rw [List.mapM_cons]
      refine ends_bind (ends_lift (fun w hw => ends_bind (ih fun ws hws => hok (w :: ws) ?_))
        fun err _ => herror err)
      rw [List.mapM_cons, hw, hws]
      rfl

/-- What a query that returns has done. -/
theorem ends_solveQuery (text : String) (e : Engine) :
    Ends (solveQuery text) e (fun rows _ => ∃ goals solutions, Goal.parseQuery text = .ok goals ∧
      (e.evaluator.query goals).1 = .ok solutions ∧
      solutions.mapM (fun s => s.render) = .ok rows) fun _ _ => True := by
  refine ends_bind
    (ends_modify (ends_bind (ends_lift (fun goals hparse => ends_bind ?_) fun _ _ => trivial)))
  refine ends_bind ?_
  rw [Ends, run_evaluate]
  split
  · next solutions e' hrun =>
    have hquery : (e.evaluator.query goals).1 = .ok solutions := congrArg Prod.fst hrun
    -- Reports on the solutions do not change them.
    have hrows : ∀ e'' : Engine, Ends (solutions.mapM fun s => (liftM s.render : Action _)) e''
        (fun rows _ => ∃ goals solutions, Goal.parseQuery text = .ok goals ∧
          (e.evaluator.query goals).1 = .ok solutions ∧
          solutions.mapM (fun s => s.render) = .ok rows) fun _ _ => True :=
      fun e'' => ends_mapM (fun rows hrows => ⟨goals, solutions, hparse, hquery, hrows⟩)
        fun _ => trivial
    refine ends_bind (ends_get (ends_bind (ends_modify ?_)))
    split
    · exact ends_bind (ends_of_forall (fun _ e'' => ends_pure (hrows e'')) fun _ _ => trivial)
    · exact ends_pure (hrows _)
  · trivial

/-- What a row shows for the variables of a query that a solution leaves unbound: the name of a
variable of the query or of a copy of a hidden variable, and the variable's own name if no stored
head repeats a variable and neither the bodies nor the query have equations. -/
def ShowsUnbound (e : Engine) (goals : List Goal) (s : Solution)
    (row : List (String × String)) : Prop :=
  ∀ x ∈ Solution.variablesOf goals, ∀ y, s.resolved x = .ok (.var y) →
    row.lookup x = some y ∧ (y ∈ Solution.variablesOf goals ∨ e.kb.IsHiddenCopy y) ∧
      (e.kb.IsAliasFree → (∀ g ∈ goals, ¬ g.Equates) → y = x)

theorem unbound_of_solveQuery {e e' : Engine} {text : String} {rows : List (List (String × String))}
    (hu : e.evaluator.options.unifier.occursCheck = true) (hkb : e.kb.All Term.HashFree)
    (hrun : (solveQuery text).run.run e = (.ok rows, e')) :
    ∃ goals solutions, Goal.parseQuery text = .ok goals ∧
      (e.evaluator.query goals).1 = .ok solutions ∧
      (∀ x ∈ Solution.variablesOf goals, HashFree x) ∧
      List.Forall₂ (e.ShowsUnbound goals) solutions rows := by
  have hends := ends_solveQuery text e
  rw [Ends, hrun] at hends
  obtain ⟨goals, solutions, hparse, hquery, hrows⟩ := hends
  have hgoals := Goal.hashFree_of_parseQuery hparse
  refine ⟨goals, solutions, hparse, hquery, fun x hx => ?_, ?_⟩
  · obtain ⟨g, hg, hxg⟩ := Solution.mem_variablesOf.mp hx
    obtain ⟨a, ha, hxa⟩ := Term.mem_varsAll.mp hxg
    exact hgoals g hg a ha x hxa
  obtain ⟨results, hsolve, rfl⟩ := Evaluator.exists_solve_of_query hquery
  -- Each row shows one result, so what is known of all results holds row by row.
  refine ((List.forall₂_and_left _ _).mpr ⟨fun s hs => hs, forall₂_of_mapM hrows⟩).imp ?_
  rintro s row ⟨hs, hrender⟩ x hx y hy
  obtain ⟨b, hb, rfl⟩ := List.mem_map.mp hs
  have himage : b.image x = .var y := Solution.image_of_resolved hy
  refine ⟨?_, Evaluator.unbound_of_mem_solve hu hkb hgoals hsolve hb hx himage, fun hfree hequal =>
    Evaluator.eq_of_mem_solve hu hkb hgoals hsolve hb hfree hequal hx himage⟩
  obtain ⟨u, w, hu, hw, hlookup⟩ := Solution.lookup_of_render hrender hx
  obtain rfl : u = .var y := Except.ok.inj (hu.symm.trans hy)
  obtain rfl : y = w := by simpa [Term.write, Term.hasText, Term.text, Term.chars] using hw
  exact hlookup

theorem exists_run_of_toOption {α : Type} {a : Action α} {e : Engine} {v : α}
    (h : (a.run.run e).1.toOption = some v) : ∃ e', a.run.run e = (.ok v, e') := by
  rcases hrun : a.run.run e with ⟨err | w, e'⟩
  · simp [hrun, Except.toOption] at h
  · obtain rfl : w = v := by simpa [hrun, Except.toOption] using h
    exact ⟨e', rfl⟩

/-- An equation, a fact that repeats its variable, and a rule with a variable that its
head does not have. -/
def linked : Engine :=
  (ofSettings {}).calls [.assertRule "same(X, Y) :- X = Y.", .assertRule "known(X) :- same(X, Z).",
    .assertFact "other(U, U)."]

/-- One variable is shown by the name of another one, one by the name of a copy, and
one by its own. -/
theorem unbound_of_solveQuery_linked :
    let text := "same(A, B), known(C), other(D, D)."
    let rows := [[("A", "B"), ("B", "B"), ("C", "Z#1"), ("D", "D")]]
    linked.evaluator.options.unifier.occursCheck = true ∧ linked.kb.All Term.HashFree ∧
      (linked.kb.Hides "Z" ∧ ∀ v ∈ ["X", "Y", "U"], ¬ linked.kb.Hides v) ∧
      ∃ e', (solveQuery text).run.run linked = (.ok rows, e') ∧
        ∃ goals solutions, Goal.parseQuery text = .ok goals ∧
          (linked.evaluator.query goals).1 = .ok solutions ∧
          (∀ x ∈ Solution.variablesOf goals, HashFree x) ∧
          List.Forall₂ (linked.ShowsUnbound goals) solutions rows := by
  intro text rows
  have hu : linked.evaluator.options.unifier.occursCheck = true := by decide +kernel
  have hkb : linked.kb.All Term.HashFree := by decide +kernel
  have hrows : ((solveQuery text).run.run linked).1.toOption = some rows := by
    unfold solveQuery runQuery Evaluator.query Evaluator.solve Evaluator.search
    rw [Search.search_eq_boundedSearch]
    decide +kernel
  obtain ⟨e', hrun⟩ := exists_run_of_toOption hrows
  exact ⟨hu, hkb, by decide +kernel, e', hrun, unbound_of_solveQuery hu hkb hrun⟩

/-- The only variable of a query is shown by the name of a variable in the copy of a rule. -/
theorem solveQuery_shows_copy :
    let e := (ofSettings {}).call (.assertRule "p(X) :- X = Y.")
    e.kb.All Term.HashFree ∧
      (Goal.parseQuery "p(A)").toOption.map Solution.variablesOf = some ["A"] ∧
      ((solveQuery "p(A)").run.run e).1.toOption = some [[("A", "Y#1")]] := by
  unfold solveQuery runQuery Evaluator.query Evaluator.solve Evaluator.search
  rw [Search.search_eq_boundedSearch]
  decide +kernel

end Engine

end Clausal
