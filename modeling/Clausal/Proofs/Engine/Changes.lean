import Clausal.Engine
import Mathlib.Logic.Relation
import Mathlib.Tactic.Common

/-!
# How actions change the store

Whatever an action on an engine does, and also when it fails halfway, it leads from one knowledge
base to the next by a chain of few kinds of changes. A clause is stored only after it was checked
against the signatures of the moment, and its own signature is recorded in the same change. All
invariants of the store are invariants of these changes.
-/

namespace Clausal.Engine

open Relation (ReflTransGen)

/-! ## Actions and how they end -/

section Ends

variable {α β : Type} {e : Engine}

/-- The action returns with a value and an engine that are in `Q`, or it fails with a fault and an
engine that are in `R`. -/
def Ends (a : Action α) (e : Engine) (Q : α → Engine → Prop) (R : Fault → Engine → Prop) : Prop :=
  match a.run.run e with
  | (.ok v, e') => Q v e'
  | (.error err, e') => R err e'

theorem Ends.mono {a : Action α} {Q Q' : α → Engine → Prop} {R R' : Fault → Engine → Prop}
    (h : Ends a e Q R) (hQ : ∀ v e', Q v e' → Q' v e') (hR : ∀ err e', R err e' → R' err e') :
    Ends a e Q' R' := by
  rw [Ends] at h ⊢
  split at h
  · exact hQ _ _ h
  · exact hR _ _ h

variable {Q : α → Engine → Prop} {R : Fault → Engine → Prop}

theorem ends_pure {v : α} (h : Q v e) : Ends (pure v) e Q R := h

theorem ends_get {Q : Engine → Engine → Prop} (h : Q e e) : Ends get e Q R := h

theorem ends_set {Q : Unit → Engine → Prop} {e' : Engine} (h : Q () e') : Ends (set e') e Q R := h

theorem ends_modify {Q : Unit → Engine → Prop} {g : Engine → Engine} (h : Q () (g e)) :
    Ends (modify g) e Q R := h

theorem ends_throw {err : Fault} (h : R err e) : Ends (throw err) e Q R := h

theorem ends_lift {x : Except Fault α} (hok : ∀ v, x = .ok v → Q v e)
    (herror : ∀ err, x = .error err → R err e) : Ends (liftM x) e Q R := by
  cases x with
  | ok v => exact hok v rfl
  | error err => exact herror err rfl

theorem ends_bind {a : Action β} {f : β → Action α}
    (h : Ends a e (fun v e' => Ends (f v) e' Q R) R) :
    Ends (a >>= f) e Q R := by
  rw [Ends] at h ⊢
  simp only [ExceptT.run_bind, StateT.run_bind]
  rcases ha : a.run.run e with ⟨err | v, e'⟩
  · rw [ha] at h
    exact h
  · rw [ha] at h
    exact h

end Ends

/-! ## Changes -/

/-- Whether settings let a clause with the given verdict pass. -/
def Admits (s : Settings) (v : Verdict) : Prop :=
  s.validation.strict.isTrue = true → v.isValid = true

/-- The changes of a knowledge base. -/
inductive Change (s : Settings) : KnowledgeBase → KnowledgeBase → Prop
  | fact {kb : KnowledgeBase} {f : Fact} {v : Verdict}
      (hv : Validation.fact (some kb.signatures) f = .ok v) (hadmits : Admits s v) :
      Change s kb ((kb.addFact f).register f.predicate f.arity)
  | rule {kb : KnowledgeBase} {r : Rule} {warn : Bool}
      (hadmits : Admits s (Validation.rule (some kb.signatures) warn r)) :
      Change s kb ((kb.addRule r).register r.predicate r.head.arity)
  | removal (kb : KnowledgeBase) (f : Fact) : Change s kb (kb.removeFact f)
  | startUp (kb : KnowledgeBase) :
      Change s kb (Builtin.names.foldl (fun kb name => kb.register name Builtin.arity) kb)
  | clearing (kb : KnowledgeBase) : Change s kb .empty

/-- What an engine can become: its settings stay, and its knowledge base changes step by step. -/
structure Becomes (e e' : Engine) : Prop where
  settings : e'.settings = e.settings
  options : e'.evaluator.options = e.evaluator.options
  changes : ReflTransGen (Change e.settings) e.kb e'.kb

namespace Becomes

variable {e e' e'' : Engine}

theorem refl (e : Engine) : Becomes e e := ⟨rfl, rfl, .refl⟩

theorem of_kb (hsettings : e'.settings = e.settings)
    (hoptions : e'.evaluator.options = e.evaluator.options) (hkb : e'.kb = e.kb) : Becomes e e' :=
  ⟨hsettings, hoptions, hkb ▸ .refl⟩

theorem of_evaluator (h : e'.settings = e.settings ∧ e'.evaluator = e.evaluator) : Becomes e e' :=
  .of_kb h.1 (congrArg _ h.2) (congrArg Evaluator.kb h.2)

theorem trans (h : Becomes e e') (h' : Becomes e' e'') : Becomes e e'' :=
  ⟨h'.settings.trans h.settings, h'.options.trans h.options,
    h.changes.trans (h.settings ▸ h'.changes)⟩

theorem withKb {kb : KnowledgeBase} (h : Change e.settings e.kb kb) : Becomes e (e.withKb kb) :=
  ⟨rfl, rfl, .single h⟩

end Becomes

/-- From every engine the action leads to one that the engine can become. -/
def Evolves {α : Type} (a : Action α) : Prop :=
  ∀ e, Ends a e (fun _ => Becomes e) fun _ => Becomes e

section Evolves

variable {α β : Type}

theorem evolves_pure (v : α) : Evolves (pure v) := fun e => .refl e

theorem evolves_get : Evolves get := fun e => .refl e

theorem evolves_lift (x : Except Fault α) : Evolves (liftM x) :=
  fun e => ends_lift (fun _ _ => .refl e) fun _ _ => .refl e

theorem Evolves.bind {a : Action α} {f : α → Action β} (ha : Evolves a) (hf : ∀ v, Evolves (f v)) :
    Evolves (a >>= f) := by
  intro e
  refine ends_bind ((ha e).mono (fun v e' he' => ?_) fun _ _ h => h)
  exact (hf v e').mono (fun _ _ h => he'.trans h) fun _ _ h => he'.trans h

theorem evolves_mapM {f : α → Action β} (hf : ∀ v, Evolves (f v)) (vs : List α) :
    Evolves (vs.mapM f) := by
  induction vs with
  | nil => exact evolves_pure []
  | cons v vs ih =>
      rw [List.mapM_cons]
      exact (hf v).bind fun w => ih.bind fun ws => evolves_pure (w :: ws)

theorem evolves_forM {f : α → Action PUnit} (hf : ∀ v, Evolves (f v)) (vs : List α) :
    Evolves (vs.forM f) := by
  induction vs with
  | nil => exact evolves_pure ()
  | cons v vs ih =>
      change Evolves (f v >>= fun _ => vs.forM f)
      exact (hf v).bind fun _ => ih

end Evolves

/-! ## Actions that store nothing -/

theorem evolves_write (r : Log.Record) : Evolves (write r) := fun _ => .of_kb rfl rfl rfl

theorem evolves_evaluate {α : Type} {call : Evaluator → Evaluator.Answer α}
    (hkb : ∀ ev, (call ev).2.kb = ev.kb) (hoptions : ∀ ev, (call ev).2.options = ev.options) :
    Evolves (evaluate call) := by
  intro e
  refine ends_bind (ends_get (ends_bind (ends_set ?_)))
  have hbecomes : Becomes e { e with
      evaluator := (call e.evaluator).2.takeRecords.2
      log := (call e.evaluator).2.takeRecords.1.reverse ++ e.log } :=
    .of_kb rfl (hoptions e.evaluator) (hkb e.evaluator)
  exact ends_lift (fun _ _ => hbecomes) fun _ _ => hbecomes

theorem kb_solve (ev : Evaluator) (goals : List Goal) (b : Bindings) :
    (ev.solve goals b).2.kb = ev.kb ∧ (ev.solve goals b).2.options = ev.options := by
  rw [Evaluator.solve]
  split
  · next h => exact ⟨congrArg (Evaluator.kb ∘ Prod.snd) h.symm,
      congrArg (Evaluator.options ∘ Prod.snd) h.symm⟩
  · next h => exact ⟨congrArg (Evaluator.kb ∘ Prod.snd) h.symm,
      congrArg (Evaluator.options ∘ Prod.snd) h.symm⟩

theorem evolves_countQuery : Evolves countQuery := fun _ => .of_kb rfl rfl rfl

theorem evolves_saySolutions (i : Nat) (ss : List Solution) : Evolves (saySolutions i ss) := by
  induction ss generalizing i with
  | nil => exact evolves_pure ()
  | cons s ss ih =>
      rw [saySolutions]
      exact (evolves_lift s.render).bind fun _ => (evolves_write _).bind fun _ => ih (i + 1)

theorem evolves_runQuery (goals : List Goal) (text : String) : Evolves (runQuery goals text) := by
  rw [runQuery]
  refine .bind
    (evolves_evaluate (fun ev => (kb_solve ev goals ∅).1) fun ev => (kb_solve ev goals ∅).2)
    fun solutions => evolves_get.bind fun e => (evolves_write _).bind fun _ => ?_
  split
  · exact (evolves_saySolutions 1 solutions).bind fun _ => evolves_pure solutions
  · exact evolves_pure solutions

/-! ## Actions that store -/

/-- What a check comes to after its warning: a failure is refused in strict mode and
otherwise reported. -/
def refuse (v : Verdict) (shown : Except Fault String) (clause : String) : Action Unit := do
  if let some reason := v.error then
    let e ← get
    if e.settings.validation.strict.isTrue then
      let shown ← shown
      throw (.invalidClause (reason ++ ": " ++ shown))
    say Log.warning ("Accepting " ++ clause ++ " despite: " ++ reason)

/-- A clause that is not refused is admitted. In any case nothing is changed. -/
theorem ends_check (v : Verdict) (shown : Except Fault String) (clause : String) (e : Engine) :
    Ends (check v shown clause) e
      (fun _ e' => e'.settings = e.settings ∧ e'.evaluator = e.evaluator ∧ Admits e.settings v)
      (fun _ e' => e'.settings = e.settings ∧ e'.evaluator = e.evaluator) := by
  have hrefusal : ∀ e' : Engine, e'.settings = e.settings → e'.evaluator = e.evaluator →
      Ends (refuse v shown clause) e'
        (fun _ e' => e'.settings = e.settings ∧ e'.evaluator = e.evaluator ∧ Admits e.settings v)
        (fun _ e' => e'.settings = e.settings ∧ e'.evaluator = e.evaluator) := by
    intro e' hsettings hevaluator
    have hsame := And.intro hsettings hevaluator
    rw [refuse]
    split
    · refine ends_bind (ends_get ?_)
      split
      · exact ends_bind (ends_lift (fun _ _ => ends_bind (ends_throw hsame)) fun _ _ => hsame)
      · next hstrict =>
        rw [hsettings] at hstrict
        exact ⟨hsettings, hevaluator, fun h => (hstrict h).elim⟩
    · next herror =>
      have hvalid : v.isValid = true := by
        cases h : v.error with
        | none => simp [Verdict.isValid, h]
        | some reason => exact (herror reason h).elim
      exact ends_pure ⟨hsettings, hevaluator, fun _ => hvalid⟩
  rw [check]
  split
  · exact ends_bind (hrefusal _ rfl rfl)
  · exact hrefusal e rfl rfl

theorem ends_register {e : Engine} {p : String} {n : Nat} {Q : Unit → Engine → Prop}
    {R : Fault → Engine → Prop} (h : ∀ log, Q () { e.withKb (e.kb.register p n) with log }) :
    Ends (register p n) e Q R := by
  refine ends_bind (ends_get ?_)
  split
  · exact ends_modify (h e.log)
  · exact ends_bind (ends_modify (ends_modify (h _)))

/-- The end of storing a clause: its signature is recorded and the change is reported. -/
theorem ends_store {e e' : Engine} {add : KnowledgeBase → KnowledgeBase}
    {p action : String} {n : Nat} (hsettings : e'.settings = e.settings)
    (hevaluator : e'.evaluator = e.evaluator)
    (hchange : Change e.settings e.kb ((add e.kb).register p n)) (text : Except Fault String) :
    Ends (do
      updateKb add
      register p n
      sayChange action (← text)) e' (fun _ => Becomes e) fun _ => Becomes e := by
  refine ends_bind (ends_modify (ends_bind (ends_register fun log => ?_)))
  have hbecomes : ∀ log, Becomes e { e'.withKb ((add e'.kb).register p n) with log } := by
    intro log
    have hoptions : e'.evaluator.options = e.evaluator.options := congrArg _ hevaluator
    have hkb : e'.kb = e.kb := congrArg Evaluator.kb hevaluator
    refine ⟨hsettings, hoptions, ?_⟩
    change ReflTransGen (Change e.settings) e.kb ((add e'.kb).register p n)
    rw [hkb]
    exact .single hchange
  exact ends_bind (ends_lift (fun _ _ => hbecomes _) fun _ _ => hbecomes log)

theorem evolves_addFact (f : Fact) : Evolves (addFact f) := by
  intro e
  refine ends_bind (ends_get (ends_bind (ends_lift (fun v hv => ?_) fun _ _ => .refl e)))
  refine ends_bind ((ends_check v f.write f.text e).mono ?_ fun _ _ => .of_evaluator)
  rintro _ e' ⟨hsettings, hevaluator, hadmits⟩
  exact ends_store hsettings hevaluator (.fact hv hadmits) f.write

theorem evolves_addRule (r : Rule) : Evolves (addRule r) := by
  intro e
  refine ends_bind
    (ends_get (ends_bind ((ends_check _ r.write r.text e).mono ?_ fun _ _ => .of_evaluator)))
  rintro _ e' ⟨hsettings, hevaluator, hadmits⟩
  exact ends_store hsettings hevaluator (.rule hadmits) r.write

theorem evolves_removeFact (f : Fact) : Evolves (removeFact f) := by
  intro e
  refine ends_bind (ends_get (ends_bind (ends_modify ?_)))
  have hremoved : Becomes e (e.withKb (e.kb.removeFact f)) := .withKb (.removal e.kb f)
  exact ends_bind (ends_lift (fun _ _ => hremoved.trans (.of_kb rfl rfl rfl)) fun _ _ => hremoved)

theorem evolves_updateKb {g : KnowledgeBase → KnowledgeBase}
    (h : ∀ (s : Settings) kb, Change s kb (g kb)) : Evolves (updateKb g) :=
  fun e => .withKb (h e.settings e.kb)

theorem evolves_startUp : Evolves startUp := by
  have hmark : Evolves (modify ({ · with initialized := true })) := fun _ => .of_kb rfl rfl rfl
  refine (evolves_updateKb fun _ kb => .startUp kb).bind fun _ => evolves_get.bind fun e => ?_
  refine Evolves.bind ?_ fun _ => hmark
  rw [sayStart]
  split
  · exact evolves_write _
  · exact evolves_pure _

theorem evolves_shutdown : Evolves shutdown := by
  have hmark : Evolves (modify ({ · with initialized := false })) := fun _ => .of_kb rfl rfl rfl
  exact (evolves_updateKb fun _ kb => .clearing kb).bind fun _ => hmark.bind
    fun _ => evolves_write _

/-! ## Calls -/

/-- The calls of an engine: its life, its clauses as texts and as values, and its queries. -/
inductive Call where
  | startUp
  | shutdown
  | assertFact (text : String)
  | assertFacts (texts : List String)
  | retractFact (text : String)
  | assertRule (text : String)
  | consult (program : String)
  | addFact (f : Fact)
  | addRule (r : Rule)
  | removeFact (f : Fact)
  | solveQuery (text : String)
  | ask (text : String)
  | query (goals : List Goal)
  | setDebug (value : Bool)

/-- The action of a call, without what it returns. -/
def Call.action : Call → Action Unit
  | startUp => Engine.startUp
  | shutdown => Engine.shutdown
  | assertFact text => Engine.assertFact text
  | assertFacts texts => Engine.assertFacts texts
  | retractFact text => do discard (Engine.retractFact text)
  | assertRule text => Engine.assertRule text
  | consult program => Engine.consult program
  | addFact f => Engine.addFact f
  | addRule r => Engine.addRule r
  | removeFact f => do discard (Engine.removeFact f)
  | solveQuery text => do discard (Engine.solveQuery text)
  | ask text => do discard (Engine.ask text)
  | query goals => do discard (Engine.query goals)
  | setDebug value => Engine.setDebug value

/-- The engine after a call, whether the call returned or failed. -/
def call (e : Engine) (c : Call) : Engine := (c.action.run.run e).2

/-- The engine after some calls, one after the other. -/
def calls (e : Engine) (cs : List Call) : Engine := cs.foldl call e

theorem Evolves.discard {α : Type} {a : Action α} (h : Evolves a) : Evolves (discard a) :=
  h.bind fun _ => evolves_pure ()

theorem evolves_assertFact (text : String) : Evolves (assertFact text) :=
  (evolves_lift _).bind evolves_addFact

theorem Call.evolves (c : Call) : Evolves c.action := by
  cases c with
  | startUp => exact evolves_startUp
  | shutdown => exact evolves_shutdown
  | assertFact text => exact evolves_assertFact text
  | assertFacts texts => exact evolves_forM evolves_assertFact texts
  | retractFact text => exact ((evolves_lift _).bind evolves_removeFact).discard
  | assertRule text => exact (evolves_lift _).bind evolves_addRule
  | consult program =>
      exact (evolves_lift _).bind fun clauses => (evolves_forM evolves_addFact _).bind fun _ =>
        evolves_forM evolves_addRule _
  | addFact f => exact evolves_addFact f
  | addRule r => exact evolves_addRule r
  | removeFact f => exact (evolves_removeFact f).discard
  | solveQuery text =>
      have hquery : Evolves (Engine.solveQuery text) :=
        evolves_countQuery.bind fun _ => (evolves_lift _).bind fun goals =>
          (evolves_runQuery goals text).bind fun solutions =>
            evolves_mapM (fun s => evolves_lift s.render) solutions
      exact hquery.discard
  | ask text =>
      have hask : Evolves (Engine.ask text) :=
        evolves_countQuery.bind fun _ => (evolves_lift _).bind fun goals =>
          evolves_evaluate (fun _ => rfl) fun _ => rfl
      exact hask.discard
  | query goals =>
      have hquery : Evolves (Engine.query goals) :=
        evolves_countQuery.bind fun _ => (evolves_lift _).bind
          fun text => evolves_runQuery goals text
      exact hquery.discard
  | setDebug value => exact fun e => .of_kb rfl rfl rfl

theorem becomes_call (e : Engine) (c : Call) : Becomes e (e.call c) := by
  have h := c.evolves e
  rw [Ends] at h
  rw [call]
  split at h
  · next heq => exact heq ▸ h
  · next heq => exact heq ▸ h

theorem becomes_calls (e : Engine) (cs : List Call) : Becomes e (e.calls cs) := by
  induction cs generalizing e with
  | nil => exact .refl e
  | cons c cs ih => exact (becomes_call e c).trans (ih (e.call c))

end Clausal.Engine
