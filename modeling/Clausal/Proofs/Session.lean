import Clausal.Proofs.Engine.Changes
import Clausal.Proofs.Engine.Frame
import Clausal.Session

/-!
# A session and its engine

A session refuses some of its calls and passes the others on to its engine. Which it refuses follows
from its settings and from the calls before: whether the last start is still in force. So a session
shows what an engine shows that never heard of the refused calls.
-/

namespace Clausal.Session

/-! ## Calls -/

/-- The calls that need logic. -/
inductive Request where
  | assertFact (text : String)
  | assertFacts (texts : List String)
  | retractFact (text : String)
  | assertRule (text : String)
  | consult (program : String)
  | solveQuery (text : String)

inductive Reply where
  | done
  | count (n : Nat)
  | rows (rows : List (List (String × String)))
  | stats (s : Stats)

inductive Call where
  | startUp
  | shutdown
  | request (r : Request)
  | stats

namespace Request

def run : Request → Action Reply
  | assertFact text => (fun _ => .done) <$> Session.assertFact text
  | assertFacts texts => (fun _ => .done) <$> Session.assertFacts texts
  | retractFact text => .count <$> Session.retractFact text
  | assertRule text => (fun _ => .done) <$> Session.assertRule text
  | consult program => (fun _ => .done) <$> Session.consult program
  | solveQuery text => .rows <$> Session.solveQuery text

/-- The same request to an engine. -/
def onEngine : Request → Engine.Action Reply
  | assertFact text => (fun _ => .done) <$> Engine.assertFact text
  | assertFacts texts => (fun _ => .done) <$> Engine.assertFacts texts
  | retractFact text => .count <$> Engine.retractFact text
  | assertRule text => (fun _ => .done) <$> Engine.assertRule text
  | consult program => (fun _ => .done) <$> Engine.consult program
  | solveQuery text => .rows <$> Engine.solveQuery text

def toCall : Request → Engine.Call
  | assertFact text => .assertFact text
  | assertFacts texts => .assertFacts texts
  | retractFact text => .retractFact text
  | assertRule text => .assertRule text
  | consult program => .consult program
  | solveQuery text => .solveQuery text

end Request

def Call.run : Call → Action Reply
  | startUp => (fun _ => .done) <$> Session.startUp
  | shutdown => (fun _ => .done) <$> Session.shutdown
  | request r => r.run
  | stats => do return .stats (← get).stats

/-- What a call returns in a session. -/
def reply (σ : Session) (c : Call) : Except Fault Reply := (c.run.run.run σ).1

/-- The session after a call, whether the call returned or failed. -/
def call (σ : Session) (c : Call) : Session := (c.run.run.run σ).2

def calls (σ : Session) (cs : List Call) : Session := cs.foldl call σ

/-! ## Refusals -/

/-- Some call starts the session, and no later call ends it. -/
def Started (before : List Call) : Prop :=
  ∃ earlier later, before = earlier ++ .startUp :: later ∧ .shutdown ∉ later

theorem started_concat {before : List Call} {c : Call} :
    Started (before ++ [c]) ↔ c = .startUp ∨ c ≠ .shutdown ∧ Started before := by
  constructor
  · rintro ⟨earlier, later, heq, hlater⟩
    rcases List.eq_nil_or_concat' later with rfl | ⟨later, d, rfl⟩
    · exact .inl (by simpa using (List.append_inj' heq rfl).2)
    · rw [← List.cons_append, ← List.append_assoc] at heq
      obtain ⟨rfl, hd⟩ := List.append_inj' heq rfl
      obtain rfl : c = d := by simpa using hd
      refine .inr ⟨fun hc => hlater (by simp [hc]), earlier, later, rfl, fun hmem => hlater ?_⟩
      exact List.mem_append_left _ hmem
  · rintro (rfl | ⟨hc, earlier, later, rfl, hlater⟩)
    · exact ⟨before, [], rfl, by simp⟩
    · exact ⟨earlier, later ++ [c], by simp, by simpa [hlater] using Ne.symm hc⟩

def track (running : Bool) : Call → Bool
  | .startUp => true
  | .shutdown => false
  | _ => running

theorem foldl_track_iff (before : List Call) :
    before.foldl track false = true ↔ Started before := by
  induction before using List.reverseRecOn with
  | nil => simp [Started]
  | append_singleton before c ih =>
      rw [List.foldl_concat, started_concat, ← ih]
      cases c <;> simp [track]

instance (before : List Call) : Decidable (Started before) :=
  decidable_of_iff _ (foldl_track_iff before)

def Allowed (s : Settings) : Prop := s.session.enableLogic.isTrue = true

instance (s : Settings) : Decidable (Allowed s) := inferInstanceAs (Decidable (_ = true))

/-- What is passed on to the engine of a call that comes after some others. -/
def passed (s : Settings) (before : List Call) : Call → Option Engine.Call
  | .startUp => if Allowed s then some .startUp else none
  | .shutdown => if Allowed s then some .shutdown else none
  | .request r => if Allowed s ∧ Started before then some r.toCall else none
  | .stats => none

/-- The calls that reach the engine after some others. -/
def passedFrom (s : Settings) (before : List Call) : List Call → List Engine.Call
  | [] => []
  | c :: cs => (passed s before c).toList ++ passedFrom s (before ++ [c]) cs

theorem passedFrom_concat (s : Settings) (before cs : List Call) (c : Call) :
    passedFrom s before (cs ++ [c]) = passedFrom s before cs ++
      (passed s (before ++ cs) c).toList := by
  induction cs generalizing before with
  | nil => simp [passedFrom]
  | cons d cs ih => simp [passedFrom, ih]

/-- The engine that is given only the calls that reach it. -/
def bare (s : Settings) (e : Engine) (cs : List Call) : Engine := e.calls (passedFrom s [] cs)

theorem bare_concat (s : Settings) (e : Engine) (cs : List Call) (c : Call) :
    bare s e (cs ++ [c]) = (bare s e cs).calls (passed s cs c).toList := by
  rw [bare, passedFrom_concat, List.nil_append]
  exact List.foldl_append

/-! ## How actions of a session end -/

/-- The sessions differ at most in their logs and loggers. -/
structure Keeps (σ σ' : Session) : Prop where
  settings : σ'.settings = σ.settings
  engine : σ'.engine = σ.engine
  initialized : σ'.initialized = σ.initialized

theorem Keeps.refl (σ : Session) : Keeps σ σ := ⟨rfl, rfl, rfl⟩

theorem Keeps.trans {σ σ' σ'' : Session} (h : Keeps σ σ') (h' : Keeps σ' σ'') : Keeps σ σ'' :=
  ⟨h'.settings.trans h.settings, h'.engine.trans h.engine, h'.initialized.trans h.initialized⟩

/-- The action ends with the result, in a session that is as described but for logs and loggers. -/
def Yields {α : Type} (a : Action α) (σ : Session) (r : Except Fault α) (σ' : Session) : Prop :=
  (a.run.run σ).1 = r ∧ Keeps σ' (a.run.run σ).2

section Yields

variable {α β : Type} {σ σ₁ σ₂ : Session}

theorem Yields.bind {a : Action α} {f : α → Action β} {v : α} {r : Except Fault β}
    (ha : Yields a σ (.ok v) σ₁) (hf : ∀ σ', Keeps σ₁ σ' → Yields (f v) σ' r σ₂) :
    Yields (a >>= f) σ r σ₂ := by
  obtain ⟨hresult, hkeeps⟩ := ha
  have hf := hf _ hkeeps
  rw [Yields, run_bind]
  rcases hrun : a.run.run σ with ⟨err | w, σ'⟩
  · simp [hrun] at hresult
  · rw [hrun] at hresult hf
    obtain rfl := Except.ok.inj hresult
    exact hf

theorem Yields.map {a : Action α} {r : Except Fault α} (h : Yields a σ r σ₁) (g : α → β) :
    Yields (g <$> a) σ (r.map g) σ₁ := by
  rw [Yields, run_map]
  exact ⟨congrArg (Except.map g) h.1, h.2⟩

theorem Yields.keeps {a : Action α} {r : Except Fault α} (h : Yields a σ r σ₁)
    (hkeeps : Keeps σ₂ σ₁) :
    Yields a σ r σ₂ :=
  ⟨h.1, hkeeps.trans h.2⟩

theorem yields_get_bind {f : Session → Action α} {r : Except Fault α} (h : Yields (f σ) σ r σ₁) :
    Yields (get >>= f) σ r σ₁ := h

theorem yields_modify (g : Session → Session) : Yields (modify g) σ (.ok ()) (g σ) :=
  ⟨rfl, .refl _⟩

theorem keeps_deliver (σ : Session) (r : Log.Record) : Keeps σ (σ.deliver r) := by
  rw [deliver, writeFile]
  split
  · split
    · split <;> exact ⟨rfl, rfl, rfl⟩
    · exact ⟨rfl, rfl, rfl⟩
  · exact .refl σ

theorem keeps_foldl_deliver (σ : Session) (rs : List Log.Record) :
    Keeps σ (rs.foldl deliver σ) := by
  induction rs generalizing σ with
  | nil => exact .refl σ
  | cons r rs ih => exact (keeps_deliver σ r).trans (ih _)

theorem yields_say (level : Log.Level) (message : String) :
    Yields (say level message) σ (.ok ()) σ :=
  ⟨rfl, keeps_deliver σ _⟩

theorem run_onEngine (a : Engine.Action α) (σ : Session) :
    (onEngine a).run.run σ = ((a.run.run σ.engine).1,
      (a.run.run σ.engine).2.takeLog.1.foldl deliver
        { σ with engine := (a.run.run σ.engine).2.quiet }) := by
  rw [onEngine, run_bind]
  change (set _ >>= fun _ => liftM (a.run.run σ.engine).1 : Action α).run.run σ = _
  rw [run_bind]
  cases (a.run.run σ.engine).1 <;> rfl

theorem yields_onEngine (a : Engine.Action α) (σ : Session) :
    Yields (onEngine a) σ (a.run.run σ.engine).1
      { σ with engine := (a.run.run σ.engine).2.quiet } := by
  rw [Yields, run_onEngine]
  exact ⟨rfl, keeps_foldl_deliver _ _⟩

/-- The settings name a log level, and a log file by a text if at all. -/
def LogOpens (s : Settings) : Prop :=
  (∃ level, levelOf s = .ok level) ∧ (s.logFile.isTrue = true → ∃ path, s.logFile = .str path)

theorem yields_openLog (h : LogOpens σ.settings) : Yields openLog σ (.ok ()) σ := by
  obtain ⟨⟨level, hlevel⟩, hfile⟩ := h
  refine yields_get_bind ?_
  split
  · rw [hlevel]
    by_cases hnamed : σ.settings.logFile.isTrue = true
    · obtain ⟨path, hpath⟩ := hfile hnamed
      rw [hpath] at hnamed
      simp only [hpath, if_pos hnamed]
      exact ⟨rfl, rfl, rfl, rfl⟩
    · simp only [if_neg hnamed]
      exact ⟨rfl, rfl, rfl, rfl⟩
  · exact ⟨rfl, .refl σ⟩

/-- The session as it is after a start or an end: the engine had its turn if logic is enabled. -/
def turned (σ : Session) (a : Engine.Action Unit) (running : Bool) : Session :=
  { σ with
    engine := if Allowed σ.settings then (a.run.run σ.engine).2.quiet else σ.engine
    initialized := running }

theorem Keeps.turned (h : Keeps σ σ₁) (a : Engine.Action Unit) (running : Bool) :
    Keeps (σ.turned a running) (σ₁.turned a running) := by
  refine ⟨h.settings, ?_, rfl⟩
  rw [Session.turned, Session.turned, h.settings, h.engine]

theorem yields_turn {a : Engine.Action Unit} {rest : Action Unit} {running : Bool}
    (ha : (a.run.run σ.engine).1 = .ok ())
    (hrest : ∀ σ', Yields rest σ' (.ok ()) { σ' with initialized := running }) :
    Yields (if σ.enabled then onEngine a >>= fun _ => rest else rest) σ (.ok ())
      (σ.turned a running) := by
  by_cases henabled : σ.enabled = true
  · have hallowed : Allowed σ.settings := henabled
    have hengine := yields_onEngine a σ
    rw [ha] at hengine
    rw [if_pos henabled, turned, if_pos hallowed]
    refine hengine.bind fun σ' hσ' => (hrest σ').keeps ?_
    exact ⟨hσ'.settings, hσ'.engine, rfl⟩
  · have hallowed : ¬ Allowed σ.settings := henabled
    rw [if_neg henabled, turned, if_neg hallowed]
    exact hrest σ

theorem ok_startUp (e : Engine) : (Engine.startUp.run.run e).1 = .ok () := by
  have hsay : ∀ e e', ∃ e'', (Engine.sayStart e).run.run e' = (.ok (), e'') := by
    intro e e'
    rw [Engine.sayStart]
    split <;> exact ⟨_, rfl⟩
  let e₁ := e.withKb (Builtin.names.foldl (fun kb name => kb.register name Builtin.arity) e.kb)
  obtain ⟨e₂, he₂⟩ := hsay e₁ e₁
  change ((Engine.sayStart e₁ >>= fun _ => modify ({ · with initialized := true })).run.run e₁).1 =
    _
  rw [run_bind, he₂]
  rfl

theorem yields_startUp (h : LogOpens σ.settings) :
    Yields startUp σ (.ok ()) (σ.turned Engine.startUp true) := by
  refine (yields_openLog h).bind fun σ' hσ' => yields_get_bind ?_
  refine (yields_turn (ok_startUp _) fun σ'' => ?_).keeps (hσ'.turned _ _)
  exact (yields_modify _).bind fun _ hkeeps => (yields_say _ _).keeps hkeeps

theorem yields_shutdown (σ : Session) :
    Yields shutdown σ (.ok ()) (σ.turned Engine.shutdown false) := by
  refine yields_get_bind (yields_turn rfl fun σ' => (yields_modify _).bind fun _ hmodify => ?_)
  refine (yields_say _ _).bind fun σ'' hsay => (yields_modify _).keeps ?_
  exact (hmodify.trans hsay).trans ⟨rfl, rfl, rfl⟩

theorem map_onEngine (a : Engine.Action α) (g : α → β) : g <$> onEngine a = onEngine (g <$> a) := by
  refine ExceptT.ext (StateT.ext fun σ => ?_)
  rw [run_map, run_onEngine, run_onEngine, run_map]

theorem Request.run_eq_act (r : Request) : r.run = act r.onEngine := by
  have hmap : ∀ {α : Type} (a : Engine.Action α) (g : α → Reply), g <$> act a = act (g <$> a) := by
    intro α a g
    rw [act, act, map_bind, map_onEngine]
  cases r <;> exact hmap _ _

/-- An action on the engine is refused, or passed on. -/
theorem run_act (a : Engine.Action α) (σ : Session) : (act a).run.run σ =
    if Allowed σ.settings then
      if σ.initialized then (onEngine a).run.run σ else (.error .notInitialized, σ)
    else (.error (.disabled feature), σ) := by
  have hready : ready.run.run σ = (if σ.enabled then
      if σ.initialized then pure () else throw .notInitialized
    else throw (.disabled feature) : Action Unit).run.run σ := rfl
  rw [act, run_bind, hready]
  by_cases hallowed : Allowed σ.settings
  · have henabled : σ.enabled = true := hallowed
    rw [if_pos henabled, if_pos hallowed]
    cases σ.initialized <;> rfl
  · have henabled : ¬ σ.enabled = true := hallowed
    rw [if_neg henabled, if_neg hallowed]
    rfl

end Yields

theorem Request.call_toCall (r : Request) (e : Engine) :
    (r.onEngine.run.run e).2 = e.call r.toCall := by
  have hmap : ∀ {α : Type} (g : α → Reply) (a : Engine.Action α),
      ((g <$> a).run.run e).2 = (((fun _ => ()) <$> a).run.run e).2 := by
    intro α g a
    rw [run_map, run_map]
  cases r with
  | retractFact text => exact hmap Reply.count _
  | solveQuery text => exact hmap Reply.rows _
  | _ => rw [onEngine, run_map]; rfl

theorem engine_turned (σ : Session) (d : Engine.Call) (running : Bool) :
    (σ.turned d.action running).engine.quiet =
      (σ.engine.calls (if Allowed σ.settings then some d else none).toList).quiet := by
  rw [turned]
  by_cases hallowed : Allowed σ.settings
  · rw [if_pos hallowed, if_pos hallowed]
    rfl
  · rw [if_neg hallowed, if_neg hallowed]
    rfl

/-! ## Refused calls erased -/

def isQuery : Engine.Call → Bool
  | .solveQuery _ => true
  | _ => false

theorem Request.regular (r : Request) : Engine.Regular (isQuery r.toCall).toNat r.onEngine := by
  cases r with
  | assertFact text => exact (Engine.regular_assertFact text).map _
  | assertFacts texts => exact (Engine.regular_forM Engine.regular_assertFact texts).map _
  | retractFact text => exact (Engine.regular_retractFact text).map _
  | assertRule text => exact (Engine.regular_assertRule text).map _
  | consult program => exact (Engine.regular_consult program).map _
  | solveQuery text => exact (Engine.regular_solveQuery text).map _

section Erased

variable {σ : Session} {s : Settings} {before : List Call}

/-- What a call does to its session: its place among the calls decides what the
engine hears of it. -/
theorem call_cases (hlog : LogOpens σ.settings) (hbefore : σ.initialized = decide (Started before))
    (c : Call) :
    (σ.call c).settings = σ.settings ∧
      (σ.call c).initialized = decide (Started (before ++ [c])) ∧
      (σ.call c).engine.quiet = (σ.engine.calls (passed σ.settings before c).toList).quiet := by
  cases c with
  | startUp =>
      obtain ⟨_, hkeeps⟩ := (yields_startUp hlog).map fun _ => Reply.done
      refine ⟨hkeeps.settings, hkeeps.initialized.trans ?_, ?_⟩
      · exact (decide_eq_true (started_concat.mpr (.inl rfl))).symm
      · exact (congrArg Engine.quiet hkeeps.engine).trans (engine_turned σ .startUp true)
  | shutdown =>
      obtain ⟨_, hkeeps⟩ := (yields_shutdown σ).map fun _ => Reply.done
      refine ⟨hkeeps.settings, hkeeps.initialized.trans ?_, ?_⟩
      · exact (decide_eq_false fun h => by simpa using started_concat.mp h).symm
      · exact (congrArg Engine.quiet hkeeps.engine).trans (engine_turned σ .shutdown false)
  | request r =>
      -- A request starts and ends nothing; a refused one leaves the engine as it is.
      have hstarted : Started (before ++ [.request r]) ↔ Started before := by simp [started_concat]
      rw [call, Call.run, r.run_eq_act, run_act, passed, hbefore, decide_eq_decide.mpr hstarted]
      by_cases hallowed : Allowed σ.settings
      · by_cases hrunning : Started before
        · obtain ⟨_, hkeeps⟩ := yields_onEngine r.onEngine σ
          rw [r.call_toCall] at hkeeps
          rw [if_pos hallowed, if_pos (decide_eq_true hrunning), if_pos ⟨hallowed, hrunning⟩]
          refine ⟨hkeeps.settings, hkeeps.initialized.trans hbefore, ?_⟩
          exact (congrArg Engine.quiet hkeeps.engine).trans rfl
        · rw [if_pos hallowed, if_neg (by simpa using hrunning), if_neg fun h => hrunning h.2]
          exact ⟨rfl, hbefore, rfl⟩
      · rw [if_neg hallowed, if_neg fun h => hallowed h.1]
        exact ⟨rfl, hbefore, rfl⟩
  | stats =>
      have hstarted : Started (before ++ [.stats]) ↔ Started before := by simp [started_concat]
      simp only [hstarted]
      exact ⟨rfl, hbefore, rfl⟩

/-- The session after some calls, as its engine and its settings show it. -/
structure Follows (s : Settings) (e : Engine) (σ : Session) (before : List Call) : Prop where
  settings : σ.settings = s
  initialized : σ.initialized = decide (Started before)
  engine : σ.engine.quiet = (bare s e before).quiet

theorem exists_regular_of_passed {c : Call} {d : Engine.Call} (h : passed s before c = some d) :
    ∃ a : Engine.Action Reply, Engine.Regular (isQuery d).toNat a ∧
      ∀ e, e.call d = (a.run.run e).2 := by
  cases c with
  | startUp =>
      obtain ⟨_, ⟨⟩⟩ := Option.ite_none_right_eq_some.mp h
      exact ⟨_, Engine.regular_startUp.map fun _ => .done, fun e => by rw [run_map]; rfl⟩
  | shutdown =>
      obtain ⟨_, ⟨⟩⟩ := Option.ite_none_right_eq_some.mp h
      exact ⟨_, Engine.regular_shutdown.map fun _ => .done, fun e => by rw [run_map]; rfl⟩
  | request r =>
      obtain ⟨_, ⟨⟩⟩ := Option.ite_none_right_eq_some.mp h
      exact ⟨r.onEngine, r.regular, fun e => (r.call_toCall e).symm⟩
  | stats => cases h

theorem quiet_calls_passed {e e' : Engine} {c : Call} (h : e.quiet = e'.quiet) :
    (e.calls (passed s before c).toList).quiet = (e'.calls (passed s before c).toList).quiet := by
  cases hpassed : passed s before c with
  | none => exact h
  | some d =>
      obtain ⟨a, ha, hcall⟩ := exists_regular_of_passed hpassed
      change (e.call d).quiet = (e'.call d).quiet
      rw [hcall, hcall, (ha.quiet_eq e).2, (ha.quiet_eq e').2, h]

theorem queries_calls_passed (e : Engine) (c : Call) :
    (e.calls (passed s before c).toList).queries =
      e.queries + (passed s before c).toList.countP isQuery := by
  cases hpassed : passed s before c with
  | none => rfl
  | some d =>
      obtain ⟨a, ha, hcall⟩ := exists_regular_of_passed hpassed
      change (e.call d).queries = _
      rw [hcall, ha.queries, Option.toList_some, List.countP_singleton]
      cases isQuery d <;> rfl

theorem queries_bare (s : Settings) (e : Engine) (cs : List Call) :
    (bare s e cs).queries = e.queries + (passedFrom s [] cs).countP isQuery := by
  induction cs using List.reverseRecOn with
  | nil => rfl
  | append_singleton cs c ih =>
      rw [bare_concat, queries_calls_passed, ih, passedFrom_concat, List.countP_append,
        Nat.add_assoc, List.nil_append]

theorem Follows.call {e : Engine} (h : Follows s e σ before) (hlog : LogOpens s) (c : Call) :
    Follows s e (σ.call c) (before ++ [c]) := by
  obtain ⟨rfl, hinitialized, hengine⟩ := h
  obtain ⟨hsettings, hrunning, hquiet⟩ := call_cases hlog hinitialized c
  refine ⟨hsettings, hrunning, hquiet.trans ?_⟩
  rw [bare_concat]
  exact quiet_calls_passed hengine

theorem follows_calls (hlog : LogOpens s) (e : Engine) (base : Log.Level) (before : List Call) :
    Follows s e ((ofEngine s e base).calls before) before := by
  induction before using List.reverseRecOn with
  | nil => exact ⟨rfl, rfl, rfl⟩
  | append_singleton before c ih =>
      rw [calls, List.foldl_concat]
      exact ih.call hlog c

/-- What a session shows after some calls. -/
structure Shows (s : Settings) (e : Engine) (before : List Call) (σ : Session) : Prop where
  engine : σ.engine.quiet = (bare s e before).quiet
  disabled : ∀ r, σ.reply (.request r) = .error (.disabled feature) ↔ ¬ Allowed s
  notInitialized : ∀ r, Allowed s →
    (σ.reply (.request r) = .error .notInitialized ↔ ¬ Started before)
  answered : ∀ r, Allowed s → Started before →
    σ.reply (.request r) = (r.onEngine.run.run (bare s e before)).1
  startUp : σ.reply .startUp = .ok .done
  shutdown : σ.reply .shutdown = .ok .done
  stats : σ.reply .stats = .ok (.stats
    { facts := (bare s e before).kb.factsCount
      rules := (bare s e before).kb.rulesCount
      queries := e.queries + (passedFrom s [] before).countP isQuery
      initialized := decide (Started before) })

theorem reply_request (σ : Session) (r : Request) : σ.reply (.request r) =
    if Allowed σ.settings then
      if σ.initialized then (r.onEngine.run.run σ.engine).1 else .error .notInitialized
    else .error (.disabled feature) := by
  rw [reply, Call.run, r.run_eq_act, run_act]
  split
  · split
    · exact (yields_onEngine r.onEngine σ).1
    · rfl
  · rfl

/-- The engine itself never refuses. -/
theorem Request.ne_refusal (r : Request) (e : Engine) (err : Fault) (herr : err.IsRefusal) :
    (r.onEngine.run.run e).1 ≠ .error err :=
  fun h => r.regular.accepts e err h herr

theorem reply_eq_disabled_iff (σ : Session) (r : Request) :
    σ.reply (.request r) = .error (.disabled feature) ↔ ¬ Allowed σ.settings := by
  rw [reply_request]
  by_cases hallowed : Allowed σ.settings
  · cases σ.initialized with
    | false => simp [hallowed]
    | true => simp [hallowed, r.ne_refusal σ.engine (.disabled feature) trivial]
  · simp [hallowed]

theorem reply_eq_notInitialized_iff (r : Request) (hallowed : Allowed σ.settings) :
    σ.reply (.request r) = .error .notInitialized ↔ σ.initialized = false := by
  rw [reply_request, if_pos hallowed]
  cases σ.initialized with
  | false => simp
  | true => simp [r.ne_refusal σ.engine .notInitialized trivial]

/-- A session is its engine with the refused calls erased. -/
theorem shows_calls (hlog : LogOpens s) (e : Engine) (base : Log.Level) (before : List Call) :
    Shows s e before ((ofEngine s e base).calls before) := by
  have h := follows_calls hlog e base before
  generalize (ofEngine s e base).calls before = σ at h
  obtain ⟨rfl, hinitialized, hengine⟩ := h
  refine ⟨hengine, reply_eq_disabled_iff σ, fun r hallowed => ?_, fun r hallowed hstarted =>
    ?_, ?_, ?_, ?_⟩
  · rw [reply_eq_notInitialized_iff r hallowed, hinitialized, decide_eq_false_iff_not]
  -- The engines differ in their logs only, which no request looks at.
  · rw [reply_request, if_pos hallowed, hinitialized, if_pos (decide_eq_true hstarted),
      (r.regular.quiet_eq σ.engine).1, hengine, ← (r.regular.quiet_eq _).1]
  · exact ((yields_startUp hlog).map fun _ => Reply.done).1
  · exact ((yields_shutdown σ).map fun _ => Reply.done).1
  · have hkb := congrArg Engine.kb hengine
    have hqueries := congrArg Engine.queries hengine
    change σ.engine.kb = (bare σ.settings e before).kb at hkb
    change σ.engine.queries = (bare σ.settings e before).queries at hqueries
    change Except.ok (Reply.stats σ.stats) = _
    rw [Session.stats, hkb, hqueries, queries_bare, hinitialized]

/-- Queries before the start and after the end are refused and not counted, a query that
cannot be read is. -/
theorem shows_calls_restarted :
    let s : Settings := {}
    let before : List Call :=
      [.request (.solveQuery "p(X)."), .startUp, .request (.assertFact "p(1)."),
      .request (.solveQuery "p(X)."), .shutdown, .request (.solveQuery "p(X)."), .stats, .startUp,
      .request (.solveQuery "p(")]
    LogOpens s ∧ (passedFrom s [] before).countP isQuery = 2 ∧
      Shows s (.ofSettings s) before ((ofEngine s (.ofSettings s) Log.info).calls before) := by
  intro s before
  have hlog : LogOpens s := ⟨⟨_, rfl⟩, fun h => by cases h⟩
  exact ⟨hlog, by decide, shows_calls hlog (.ofSettings s) Log.info before⟩

end Erased

end Clausal.Session
