import Clausal.Proofs.Engine.Changes
import Clausal.Proofs.Grammar.Lexing
import Clausal.Proofs.Grammar.Soundness
import Clausal.Proofs.Search.Faults

/-!
# What actions on an engine leave alone

No action looks at the records that wait in the log: it puts its own in front of them, and its
result and the rest of the engine are the same whatever they are. Queries are counted by the
calls that ask one, once, whether the call returns or fails. No action fails for a reason that
only a session has.
-/

namespace Clausal

/-- The faults by which a session refuses a call. -/
def Fault.IsRefusal : Fault → Prop
  | .disabled _ => True
  | .notInitialized => True
  | _ => False

/-- The result is a value, or a fault that is not a refusal. -/
def Accepts {α : Type} (r : Except Fault α) : Prop := ∀ err, r = .error err → ¬ err.IsRefusal

section Accepts

variable {α β : Type}

theorem accepts_ok (v : α) : Accepts (.ok v) := by
  intro err h
  cases h

theorem accepts_error {err : Fault} (h : ¬ err.IsRefusal) :
    Accepts (.error err : Except Fault α) := by
  intro err' h'
  obtain rfl := Except.error.inj h'
  exact h

theorem accepts_map {r : Except Fault α} (h : Accepts r) (g : α → β) : Accepts (r.map g) := by
  cases r with
  | ok v => exact accepts_ok (g v)
  | error err => exact accepts_error (h err rfl)

theorem Accepts.bind {r : Except Fault α} {f : α → Except Fault β} (h : Accepts r)
    (hf : ∀ v, Accepts (f v)) : Accepts (r >>= f) := by
  cases r with
  | ok v => exact hf v
  | error err => exact accepts_error (h err rfl)

theorem accepts_mapM {f : α → Except Fault β} (hf : ∀ v, Accepts (f v)) (vs : List α) :
    Accepts (vs.mapM f) := by
  induction vs with
  | nil => exact accepts_ok []
  | cons v vs ih =>
      rw [List.mapM_cons]
      exact (hf v).bind fun w => ih.bind fun ws => accepts_ok (w :: ws)

theorem accepts_write {c : Bool} {text : String} :
    Accepts (if c then .ok text else .error .unwritable : Except Fault String) := by
  cases c with
  | true => exact accepts_ok text
  | false => exact accepts_error id

theorem accepts_groundFact (f : Fact) : Accepts (Validation.groundFact f) := by
  rw [Validation.groundFact]
  split
  · exact accepts_ok _
  · split
    · exact accepts_ok _
    · split
      · exact accepts_ok _
      · exact accepts_error id

theorem accepts_validation (table : Option Validation.Signatures) (f : Fact) :
    Accepts (Validation.fact table f) := by
  refine (accepts_groundFact f).bind fun verdict => ?_
  cases table <;> exact accepts_ok _

theorem accepts_render (s : Solution) : Accepts s.render := by
  have hvalues : Accepts s.values := by
    refine accepts_mapM (fun x => ?_) _
    have hresolved : Accepts (s.resolved x) := by
      rw [Solution.resolved]
      split
      · exact accepts_ok _
      · exact accepts_error id
    exact hresolved.bind fun t => accepts_ok (x, t)
  exact hvalues.bind fun values => accepts_mapM (fun (x, t) =>
    Accepts.bind accepts_write fun shown => accepts_ok (x, shown)) values

end Accepts

/-! ## Reading and searching -/

namespace Grammar

theorem accepts_of_readsAll {α : Type} {s : Start α} {stop : Nat} {ts : List Token}
    {r : Except Fault α} (h : ReadsAll s stop ts r) : Accepts r := by
  intro err herr
  subst herr
  cases err with
  | disabled _ | notInitialized => exact h.elim
  | _ => exact id

theorem accepts_tokensFrom (pos : Nat) (cs : List Char) : Accepts (tokensFrom pos cs) := by
  fun_induction tokensFrom pos cs with
  | case1 => exact accepts_ok []
  | case2 => exact accepts_error id
  | case3 pos c cs lexeme m _ e htail ih => exact accepts_error (ih e htail)
  | case4 | case5 => exact accepts_ok _

/-- A reader fails with the cutting of its text, or it reads all tokens. -/
theorem accepts_of_tokenize {α : Type} {s : Start α} {text : String} {r : Except Fault α}
    (herror : ∀ err, tokenize text = .error err → r = .error err)
    (hok : ∀ ts, tokenize text = .ok ts → Proper ts → ReadsAll s text.length ts r) : Accepts r := by
  cases htext : tokenize text with
  | error err =>
      rw [herror err htext]
      exact accepts_error (accepts_tokensFrom 0 text.toList err htext)
  | ok ts => exact accepts_of_readsAll (hok ts htext (proper_of_tokenize htext))

end Grammar

open Grammar

theorem accepts_parseFact (text : String) : Accepts (Fact.parse text) := by
  refine accepts_of_tokenize (fun err htext => ?_) fun ts htext hts => Fact.readsAll_parse htext hts
  rw [Fact.parse, htext]
  rfl

theorem accepts_parseRule (text : String) : Accepts (Rule.parse text) := by
  cases hneck : mentionsNeck text.toList with
  | false =>
      rw [Rule.parse, hneck]
      exact accepts_error id
  | true =>
      refine accepts_of_tokenize (fun err htext => ?_) fun ts htext hts =>
        Rule.readsAll_parse htext hts hneck
      rw [Rule.parse, hneck, htext]
      rfl

theorem accepts_parseProgram (text : String) : Accepts (Clause.parseProgram text) := by
  refine accepts_of_tokenize (fun err htext => ?_) fun ts htext hts =>
    Clause.readsAll_parseProgram htext hts
  rw [Clause.parseProgram, htext]
  rfl

theorem accepts_parseQuery (text : String) : Accepts (Goal.parseQuery text) := by
  by_cases hempty : tokenize text = .ok []
  · rw [Goal.parseQuery, hempty]
    exact accepts_error id
  · refine accepts_of_tokenize (fun err htext => ?_) fun ts htext hts =>
      Goal.readsAll_parseQuery htext hts fun hnil => hempty (hnil ▸ htext)
    rw [Goal.parseQuery, htext]
    rfl

theorem accepts_search (t : Search.Task) (strategy : Strategy) (s : Search.State)
    (p : Search.Progress) : Accepts (Search.search t strategy s p).outcome := by
  intro err herr
  rcases Search.fault_of_search herr with ⟨_, _, rfl⟩ | ⟨_, rfl⟩ | rfl | ⟨rfl, _⟩ <;> exact id

theorem accepts_solve (ev : Evaluator) (goals : List Goal) (b : Bindings) :
    Accepts (ev.solve goals b).1 := by
  have hsearch : Accepts (ev.reset.search none ev.options.strategy ⟨goals, b, 0⟩).1 :=
    accepts_search _ _ _ _
  rw [Evaluator.solve]
  split
  · next err _ h =>
    rw [h] at hsearch
    exact hsearch
  · exact accepts_ok _

theorem run_bind {σ α β : Type} (a : ExceptT Fault (StateM σ) α)
    (f : α → ExceptT Fault (StateM σ) β) (s : σ) :
    (a >>= f).run.run s =
      match a.run.run s with
      | (.ok v, s') => (f v).run.run s'
      | (.error err, s') => (.error err, s') := by
  simp only [ExceptT.run_bind, StateT.run_bind]
  rcases a.run.run s with ⟨err | v, s'⟩ <;> rfl

theorem run_map {σ α β : Type} (g : α → β) (a : ExceptT Fault (StateM σ) α) (s : σ) :
    (g <$> a).run.run s = ((a.run.run s).1.map g, (a.run.run s).2) := by
  rw [map_eq_pure_bind, run_bind]
  rcases a.run.run s with ⟨err | v, s'⟩ <;> rfl

namespace Engine

/-! ## Frames -/

/-- The engine with further records in its log, behind its own. -/
def behind (e : Engine) (l : List Log.Record) : Engine := { e with log := e.log ++ l }

def quiet (e : Engine) : Engine := { e with log := [] }

/-- What the action does does not depend on the log. It counts `n` queries, and does not fail by a
refusal. -/
structure Regular {α : Type} (n : Nat) (a : Action α) : Prop where
  frame : ∀ e l, a.run.run (e.behind l) = ((a.run.run e).1, (a.run.run e).2.behind l)
  queries : ∀ e, (a.run.run e).2.queries = e.queries + n
  accepts : ∀ e, Accepts (a.run.run e).1

section Rules

variable {α β : Type} {n : Nat}

theorem regular_pure (v : α) : Regular 0 (pure v) :=
  ⟨fun _ _ => rfl, fun _ => rfl, fun _ => accepts_ok v⟩

theorem regular_lift {r : Except Fault α} (h : Accepts r) : Regular 0 (liftM r : Action α) := by
  cases r with
  | ok v => exact regular_pure v
  | error err => exact ⟨fun _ _ => rfl, fun _ => rfl, fun _ => h⟩

theorem regular_modify {g : Engine → Engine} (hframe : ∀ e l, g (e.behind l) = (g e).behind l)
    (hqueries : ∀ e, (g e).queries = e.queries + n) : Regular n (modify g : Action Unit) :=
  ⟨fun e l => congrArg (Prod.mk _) (hframe e l), hqueries, fun _ => accepts_ok ()⟩

theorem Regular.bind {a : Action α} {f : α → Action β} (ha : Regular n a)
    (hf : ∀ v, Regular 0 (f v)) : Regular n (a >>= f) := by
  refine ⟨fun e l => ?_, fun e => ?_, fun e => ?_⟩
  · rw [run_bind, run_bind, ha.frame]
    rcases a.run.run e with ⟨err | v, e'⟩
    · rfl
    · exact (hf v).frame e' l
  · have hqueries := ha.queries e
    rw [run_bind]
    rcases hrun : a.run.run e with ⟨err | v, e'⟩
    · rwa [hrun] at hqueries
    · rw [hrun] at hqueries
      exact ((hf v).queries e').trans hqueries
  · have haccepts := ha.accepts e
    rw [run_bind]
    rcases hrun : a.run.run e with ⟨err | v, e'⟩
    · rw [hrun] at haccepts
      exact accepts_error (haccepts err rfl)
    · exact (hf v).accepts e'

theorem Regular.map {a : Action α} (ha : Regular n a) (g : α → β) : Regular n (g <$> a) := by
  rw [map_eq_pure_bind]
  exact ha.bind fun v => regular_pure (g v)

/-- An action may look at the engine, its log apart. -/
theorem regular_get {f : Engine → Action α} (hquiet : ∀ e l, f (e.behind l) = f e)
    (hf : ∀ e, Regular n (f e)) : Regular n (get >>= f) := by
  refine ⟨fun e l => ?_, fun e => (hf e).queries e, fun e => (hf e).accepts e⟩
  change (f (e.behind l)).run.run (e.behind l) = _
  rw [hquiet]
  exact (hf e).frame e l

theorem regular_forM {f : α → Action PUnit} (hf : ∀ v, Regular 0 (f v)) (vs : List α) :
    Regular 0 (vs.forM f) := by
  induction vs with
  | nil => exact regular_pure ()
  | cons v vs ih =>
      change Regular 0 (f v >>= fun _ => vs.forM f)
      exact (hf v).bind fun _ => ih

theorem regular_mapM {f : α → Action β} (hf : ∀ v, Regular 0 (f v)) (vs : List α) :
    Regular 0 (vs.mapM f) := by
  induction vs with
  | nil => exact regular_pure []
  | cons v vs ih =>
      rw [List.mapM_cons]
      exact (hf v).bind fun w => ih.bind fun ws => regular_pure (w :: ws)

end Rules

/-- The log apart, a regular action does the same to engines that are the same. -/
theorem Regular.quiet_eq {α : Type} {n : Nat} {a : Action α} (h : Regular n a) (e : Engine) :
    (a.run.run e).1 = (a.run.run e.quiet).1 ∧
      (a.run.run e).2.quiet = (a.run.run e.quiet).2.quiet := by
  have hframe := h.frame e.quiet e.log
  -- An engine is its quiet self with its log put behind.
  have he : e.quiet.behind e.log = e := rfl
  rw [he] at hframe
  rw [hframe]
  exact ⟨rfl, rfl⟩

/-! ## Actions -/

theorem regular_write (r : Log.Record) : Regular 0 (write r) :=
  regular_modify (fun _ _ => rfl) fun _ => rfl

theorem regular_updateKb (g : KnowledgeBase → KnowledgeBase) : Regular 0 (updateKb g) :=
  regular_modify (fun _ _ => rfl) fun _ => rfl

theorem regular_register (p : String) (n : Nat) : Regular 0 (register p n) := by
  refine regular_get (fun _ _ => rfl) fun e => ?_
  split
  · exact regular_updateKb _
  · exact (regular_write _).bind fun _ => regular_updateKb _

theorem regular_check (v : Verdict) {shown : Except Fault String} (hshown : Accepts shown)
    (clause : String) : Regular 0 (check v shown clause) := by
  -- What comes after the warning is the same with and without one.
  have hrefusal : Regular 0 (refuse v shown clause) := by
    rw [refuse]
    split
    · refine regular_get (fun _ _ => rfl) fun e => ?_
      split
      · exact (regular_lift hshown).bind
          fun _ => ⟨fun _ _ => rfl, fun _ => rfl, fun _ => accepts_error id⟩
      · exact regular_write _
    · exact regular_pure ()
  rw [check]
  split
  · exact (regular_write _).bind fun _ => hrefusal
  · exact hrefusal

theorem regular_store (add : KnowledgeBase → KnowledgeBase) (p action : String) (n : Nat)
    {text : Except Fault String} (htext : Accepts text) :
    Regular 0 (do
      updateKb add
      register p n
      sayChange action (← text)) :=
  (regular_updateKb add).bind fun _ => (regular_register p n).bind fun _ =>
    (regular_lift htext).bind fun _ => regular_write _

theorem regular_addFact (f : Fact) : Regular 0 (addFact f) :=
  regular_get (fun _ _ => rfl) fun _ => (regular_lift (accepts_validation _ f)).bind fun v =>
    (regular_check v accepts_write f.text).bind fun _ => regular_store _ _ _ _ accepts_write

theorem regular_addRule (r : Rule) : Regular 0 (addRule r) :=
  regular_get (fun _ _ => rfl) fun _ =>
    (regular_check _ accepts_write r.text).bind fun _ => regular_store _ _ _ _ accepts_write

theorem regular_removeFact (f : Fact) : Regular 0 (removeFact f) :=
  regular_get (fun _ _ => rfl) fun _ => (regular_updateKb _).bind fun _ =>
    (regular_lift accepts_write).bind fun _ => (regular_write _).bind fun _ => regular_pure _

theorem regular_startUp : Regular 0 startUp := by
  have hmark : Regular 0 (modify ({ · with initialized := true }) : Action Unit) :=
    regular_modify (fun _ _ => rfl) fun _ => rfl
  refine (regular_updateKb _).bind fun _ => regular_get (fun _ _ => rfl) fun e => ?_
  refine Regular.bind ?_ fun _ => hmark
  rw [sayStart]
  split
  · exact regular_write _
  · exact regular_pure _

theorem regular_shutdown : Regular 0 shutdown := by
  have hmark : Regular 0 (modify ({ · with initialized := false }) : Action Unit) :=
    regular_modify (fun _ _ => rfl) fun _ => rfl
  exact (regular_updateKb _).bind fun _ => hmark.bind fun _ => regular_write _

theorem regular_assertFact (text : String) : Regular 0 (assertFact text) :=
  (regular_lift (accepts_parseFact text)).bind regular_addFact

theorem regular_retractFact (text : String) : Regular 0 (retractFact text) :=
  (regular_lift (accepts_parseFact text)).bind regular_removeFact

theorem regular_assertRule (text : String) : Regular 0 (assertRule text) :=
  (regular_lift (accepts_parseRule text)).bind regular_addRule

theorem regular_consult (program : String) : Regular 0 (consult program) :=
  (regular_lift (accepts_parseProgram program)).bind fun _ =>
    (regular_forM regular_addFact _).bind fun _ => regular_forM regular_addRule _

theorem run_evaluate {α : Type} (call : Evaluator → Evaluator.Answer α) (e : Engine) :
    (evaluate call).run.run e =
      ((call e.evaluator).1, { e with
        evaluator := (call e.evaluator).2.takeRecords.2
        log := (call e.evaluator).2.takeRecords.1.reverse ++ e.log }) := by
  rw [evaluate, run_bind]
  change (set _ >>= fun _ => liftM (call e.evaluator).1 : Action α).run.run e = _
  rw [run_bind]
  cases (call e.evaluator).1 <;> rfl

theorem regular_evaluate {α : Type} {call : Evaluator → Evaluator.Answer α}
    (h : ∀ ev, Accepts (call ev).1) : Regular 0 (evaluate call) := by
  refine ⟨fun e l => ?_, fun e => ?_, fun e => ?_⟩
  · rw [run_evaluate, run_evaluate]
    exact congrArg (fun log => ((call e.evaluator).1, { e with
      evaluator := (call e.evaluator).2.takeRecords.2, log })) (List.append_assoc ..).symm
  · rw [run_evaluate]
    rfl
  · rw [run_evaluate]
    exact h e.evaluator

theorem regular_saySolutions (i : Nat) (ss : List Solution) : Regular 0 (saySolutions i ss) := by
  induction ss generalizing i with
  | nil => exact regular_pure ()
  | cons s ss ih =>
      rw [saySolutions]
      exact (regular_lift (accepts_render s)).bind fun _ => (regular_write _).bind
        fun _ => ih (i + 1)

theorem regular_runQuery (goals : List Goal) (text : String) : Regular 0 (runQuery goals text) := by
  have hquery : ∀ ev : Evaluator, Accepts (ev.query goals).1 :=
    fun ev => accepts_map (accepts_solve ev goals ∅) _
  refine (regular_evaluate hquery).bind fun solutions => regular_get (fun _ _ => rfl) fun e =>
    (regular_write _).bind fun _ => ?_
  split
  · exact (regular_saySolutions 1 solutions).bind fun _ => regular_pure solutions
  · exact regular_pure solutions

theorem regular_solveQuery (text : String) : Regular 1 (solveQuery text) := by
  have hcount : Regular 1 countQuery := regular_modify (fun _ _ => rfl) fun _ => rfl
  exact hcount.bind fun _ => (regular_lift (accepts_parseQuery text)).bind fun goals =>
    (regular_runQuery goals text).bind fun solutions =>
      regular_mapM (fun s => regular_lift (accepts_render s)) solutions

end Engine

end Clausal
