import Clausal.Session

/-!
# Settings that are read

Settings that are read from data pass the checks that settings built directly pass, with one
exception. The strategy, the renaming mode and the depth limit of queries are checked on every way,
and an evaluator that is made with them repeats checks that cannot fail any more. The log level is
taken over as it stands: it is a known one exactly if the data have none or have a known one. Where
it is known the session finds its level.
-/

namespace Clausal

theorem bind_eq_ok_iff {α β : Type} {x : Except Fault α} {f : α → Except Fault β} {b : β} :
    (x >>= f) = .ok b ↔ ∃ a, x = .ok a ∧ f a = .ok b := by
  cases x with
  | error e => simp [bind, Except.bind]
  | ok a => simp [bind, Except.bind]

/-! ## Values that are checked -/

/-- A number that is not negative, or what is not a number in floating-point arithmetic. -/
def Data.IsLimit : Data → Prop
  | .int n => 0 ≤ n
  | .float x => 0.0 ≤ x ∨ x.isNaN = true
  | .bool _ => True
  | _ => False

open Float.Model in
theorem not_lt_zero_iff (x : Float) : ¬ x < 0.0 ↔ 0.0 ≤ x ∨ x.isNaN = true := by
  have hlt : x < 0.0 ↔ UnpackedFloat.lt x.toModel.unpack (.zero .positive) = true :=
    decide_eq_true_iff
  have hle : 0.0 ≤ x ↔ UnpackedFloat.le (.zero .positive) x.toModel.unpack = true :=
    decide_eq_true_iff
  have hnan : x.isNaN = x.toModel.unpack.isNaN := rfl
  rw [hlt, hle, hnan]
  cases x.toModel.unpack with
  | infinity s | zero s => cases s <;> decide
  | notANumber => decide
  | finite s m e hm =>
      cases s with
      | positive => exact (by decide : ¬ (false = true) ↔ true = true ∨ false = true)
      | negative => exact (by decide : ¬ (true = true) ↔ false = true ∨ false = true)

namespace Limit

variable {d : Data} {l : Limit}

theorem exists_ofData_iff : (∃ l, ofData d = .ok l) ↔ d.IsLimit := by
  cases d with
  | int n =>
      by_cases hn : n < 0
      · simp [ofData, Data.IsLimit, hn]
      · simp [ofData, Data.IsLimit, hn, Int.not_lt.mp hn]
  | float x =>
      rw [Data.IsLimit, ← not_lt_zero_iff]
      by_cases hx : x < 0.0
      · simp [ofData, hx]
      · simp [ofData, hx]
  | _ => simp [ofData, Data.IsLimit]

/-- A limit that passed its check passes it again. -/
theorem ofData_toData (h : ofData d = .ok l) : ofData l.toData = .ok l := by
  cases d with
  | int n =>
      by_cases hn : n < 0
      · simp [ofData, hn] at h
      · obtain rfl : Limit.whole n.toNat = l := by simpa [ofData, hn] using h
        rw [toData, ofData, if_neg (Int.not_lt.mpr (Int.natCast_nonneg n.toNat)), Int.toNat_natCast]
  | float x =>
      by_cases hx : x < 0.0
      · simp [ofData, hx] at h
      · obtain rfl : Limit.fraction x = l := by simpa [ofData, hx] using h
        simp [ofData, toData, hx]
  | bool b =>
      obtain rfl : Limit.flag b = l := by simpa [ofData] using h
      rfl
  | _ => simp [ofData] at h

end Limit

theorem Strategy.exists_ofData_iff {d : Data} :
    (∃ s, Strategy.ofData d = .ok s) ↔ ∃ name ∈ ["baseline", "constrained"], d = .str name := by
  cases d with
  | str name =>
      by_cases hb : name = "baseline"
      · subst hb
        simp [Strategy.ofData, Strategy.ofName?]
      by_cases hc : name = "constrained"
      · subst hc
        simp [Strategy.ofData, Strategy.ofName?]
      simp [Strategy.ofData, Strategy.ofName?, hb, hc]
  | _ => simp [Strategy.ofData]

theorem Strategy.ofData_name (s : Strategy) : Strategy.ofData (.str s.name) = .ok s := by
  cases s <;> rfl

theorem RenamingMode.exists_ofData_iff {d : Data} :
    (∃ m, RenamingMode.ofData d = .ok m) ↔ ∃ name ∈ ["application", "depth"], d = .str name := by
  cases d with
  | str name =>
      by_cases ha : name = "application"
      · subst ha
        simp [RenamingMode.ofData, RenamingMode.ofName?]
      by_cases hd : name = "depth"
      · subst hd
        simp [RenamingMode.ofData, RenamingMode.ofName?]
      simp [RenamingMode.ofData, RenamingMode.ofName?, ha, hd]
  | _ => simp [RenamingMode.ofData]

theorem RenamingMode.ofData_name (m : RenamingMode) :
    RenamingMode.ofData (.str m.name) = .ok m := by
  cases m <;> rfl

/-- A text that names a level, in letters of any case. -/
def Data.NamesLevel (d : Data) : Prop :=
  ∃ name, d = .str name ∧ Log.upperName name ∈ Settings.levelNames

theorem Log.exists_levelOf? {name : String} (h : Log.upperName name ∈ Settings.levelNames) :
    ∃ level, Log.levelOf? name = some level ∧ Log.levelName level = Log.upperName name := by
  simp only [Settings.levelNames, List.mem_cons, List.not_mem_nil, or_false] at h
  rcases h with h | h | h | h | h <;> simp [Log.levelOf?, h, Log.levelName]

namespace Settings

variable {fields : Fields} {known : List String}

theorem checkNames_eq_ok_iff {u : Unit} :
    checkNames known fields = .ok u ↔ ∀ f ∈ fields, f.1 ∈ known := by
  simp [checkNames]

theorem checkLevel_eq_ok_iff {d : Data} : checkLevel d = .ok () ↔ d.NamesLevel := by
  cases d with
  | str name =>
      by_cases h : Log.upperName name ∈ levelNames
      · simp [checkLevel, Data.NamesLevel, h]
      · simp [checkLevel, Data.NamesLevel, h]
  | _ => simp [checkLevel, Data.NamesLevel]

theorem exists_levelOf {s : Settings} (h : s.logLevel.NamesLevel) :
    ∃ name level, s.logLevel = .str name ∧ Clausal.Session.levelOf s = .ok level ∧
      Log.levelName level = Log.upperName name := by
  obtain ⟨name, hname, h⟩ := h
  obtain ⟨level, hl, hn⟩ := Log.exists_levelOf? h
  exact ⟨name, level, hname, by simp [Clausal.Session.levelOf, hname, hl], hn⟩

/-! ## Sections -/

namespace Query

/-- The fields of query settings that pass the checks. -/
structure Accepts (fields : Fields) : Prop where
  names : ∀ f ∈ fields, f.1 ∈ ["max_depth", "strategy", "renaming", "occurs_check", "trace_enabled"]
  strategy : ∃ name ∈ ["baseline", "constrained"],
    fieldOr fields "strategy" (.str "constrained") = .str name
  mode : ∃ name ∈ ["application", "depth"],
    fieldOr fields "renaming" (.str "application") = .str name
  limit : (fieldOr fields "max_depth" Limit.default.toData).IsLimit

variable {q : Query}

theorem ofFields_eq_ok_iff : ofFields fields = .ok q ↔
    (∀ f ∈ fields, f.1 ∈ ["max_depth", "strategy", "renaming", "occurs_check", "trace_enabled"]) ∧
      Strategy.ofData (fieldOr fields "strategy" (.str "constrained")) = .ok q.strategy ∧
      RenamingMode.ofData (fieldOr fields "renaming" (.str "application")) = .ok q.mode ∧
      Limit.ofData (fieldOr fields "max_depth" Limit.default.toData) = .ok q.maxDepth ∧
      q.occursCheck = fieldOr fields "occurs_check" (.bool true) ∧
      q.traceEnabled = fieldOr fields "trace_enabled" (.bool false) := by
  simp only [ofFields, bind_eq_ok_iff, checkNames_eq_ok_iff]
  constructor
  · rintro ⟨_, hn, strategy, hs, mode, hm, limit, hl, h⟩
    cases h
    exact ⟨hn, hs, hm, hl, rfl, rfl⟩
  · rintro ⟨hn, hs, hm, hl, ho, ht⟩
    refine ⟨(), hn, _, hs, _, hm, _, hl, ?_⟩
    rw [← ho, ← ht]
    rfl

theorem exists_ofFields_iff : (∃ q, ofFields fields = .ok q) ↔ Accepts fields := by
  constructor
  · rintro ⟨q, hq⟩
    obtain ⟨hn, hs, hm, hl, -, -⟩ := ofFields_eq_ok_iff.mp hq
    exact ⟨hn, Strategy.exists_ofData_iff.mp ⟨_, hs⟩, RenamingMode.exists_ofData_iff.mp ⟨_, hm⟩,
      Limit.exists_ofData_iff.mp ⟨_, hl⟩⟩
  · rintro ⟨hn, hs, hm, hl⟩
    obtain ⟨strategy, hs⟩ := Strategy.exists_ofData_iff.mpr hs
    obtain ⟨mode, hm⟩ := RenamingMode.exists_ofData_iff.mpr hm
    obtain ⟨maxDepth, hl⟩ := Limit.exists_ofData_iff.mpr hl
    exact ⟨⟨maxDepth, strategy, mode, _, _⟩, ofFields_eq_ok_iff.mpr ⟨hn, hs, hm, hl, rfl, rfl⟩⟩

theorem ofFields_toFields (h : ofFields fields = .ok q) : ofFields q.toFields = .ok q := by
  obtain ⟨-, -, -, hl, -, -⟩ := ofFields_eq_ok_iff.mp h
  refine ofFields_eq_ok_iff.mpr ⟨?_, Strategy.ofData_name _, RenamingMode.ofData_name _,
    Limit.ofData_toData hl, rfl, rfl⟩
  simp [toFields]

end Query

theorem Validation.exists_ofFields_iff :
    (∃ v, Validation.ofFields fields = .ok v) ↔
      ∀ f ∈ fields, f.1 ∈ ["strict", "warn_singletons"] := by
  simp [Validation.ofFields, bind_eq_ok_iff, checkNames_eq_ok_iff, pure, Except.pure]

theorem Session.exists_ofFields_iff :
    (∃ s, Session.ofFields fields = .ok s) ↔ ∀ f ∈ fields, f.1 ∈ ["enable_logic"] := by
  simp [Session.ofFields, bind_eq_ok_iff, checkNames_eq_ok_iff, pure, Except.pure]

section ReadSection

variable {α : Type} {name : String} {missing a : α} {read : Fields → Except Fault α}

theorem exists_readSection_iff : (∃ a, readSection fields name missing read = .ok a) ↔
    ∀ d, Data.get? fields name = some d → ∃ body, d = .map body ∧ ∃ a, read body = .ok a := by
  rw [readSection]
  cases Data.get? fields name with
  | none => simp
  | some d => cases d <;> simp

/-- A section that is read is the default or comes from the fields of a map. -/
theorem readSection_cases (h : readSection fields name missing read = .ok a) :
    a = missing ∨ ∃ body, read body = .ok a := by
  rw [readSection] at h
  split at h
  · cases h
    exact .inl rfl
  · exact .inr ⟨_, h⟩
  · cases h

end ReadSection

/-! ## All settings -/

/-- Data from which settings are read: each section is absent or a map of fields that pass their
checks. The log level is not among them. -/
structure Accepts (fields : Fields) : Prop where
  query : ∀ d, Data.get? fields "query" = some d → ∃ body, d = .map body ∧ Query.Accepts body
  validation : ∀ d, Data.get? fields "validation" = some d →
    ∃ body, d = .map body ∧ ∀ f ∈ body, f.1 ∈ ["strict", "warn_singletons"]
  session : ∀ d, Data.get? fields "runtime" = some d →
    ∃ body, d = .map body ∧ ∀ f ∈ body, f.1 ∈ ["enable_logic"]

variable {s : Settings}

theorem ofFields_eq_ok_iff : ofFields fields = .ok s ↔
    readSection fields "query" {} Query.ofFields = .ok s.query ∧
      readSection fields "validation" {} Validation.ofFields = .ok s.validation ∧
      readSection fields "runtime" {} Session.ofFields = .ok s.session ∧
      s.logLevel = fieldOr fields "log_level" (.str "WARNING") ∧
      s.logFile = fieldOr fields "log_file" .null := by
  simp only [ofFields, bind_eq_ok_iff]
  constructor
  · rintro ⟨query, hq, validation, hv, session, hr, h⟩
    cases h
    exact ⟨hq, hv, hr, rfl, rfl⟩
  · rintro ⟨hq, hv, hr, hl, hf⟩
    refine ⟨_, hq, _, hv, _, hr, ?_⟩
    rw [← hl, ← hf]
    rfl

theorem exists_ofFields_iff : (∃ s, ofFields fields = .ok s) ↔ Accepts fields := by
  constructor
  · rintro ⟨s, hs⟩
    obtain ⟨hq, hv, hr, -, -⟩ := ofFields_eq_ok_iff.mp hs
    have hq := exists_readSection_iff.mp ⟨_, hq⟩
    have hv := exists_readSection_iff.mp ⟨_, hv⟩
    have hr := exists_readSection_iff.mp ⟨_, hr⟩
    simp only [Query.exists_ofFields_iff] at hq
    simp only [Validation.exists_ofFields_iff] at hv
    simp only [Session.exists_ofFields_iff] at hr
    exact ⟨hq, hv, hr⟩
  · rintro ⟨hq, hv, hr⟩
    simp only [← Query.exists_ofFields_iff] at hq
    simp only [← Validation.exists_ofFields_iff] at hv
    simp only [← Session.exists_ofFields_iff] at hr
    obtain ⟨query, hq⟩ := exists_readSection_iff.mpr hq
    obtain ⟨validation, hv⟩ := exists_readSection_iff.mpr hv
    obtain ⟨session, hr⟩ := exists_readSection_iff.mpr hr
    exact ⟨⟨query, validation, session, _, _⟩, ofFields_eq_ok_iff.mpr ⟨hq, hv, hr, rfl, rfl⟩⟩

/-- The query settings that were read pass the checks again, and nothing changes. -/
theorem query_ofFields_toFields (h : ofFields fields = .ok s) :
    Query.ofFields s.query.toFields = .ok s.query := by
  rcases readSection_cases (ofFields_eq_ok_iff.mp h).1 with hq | ⟨body, hq⟩
  · rw [hq]
    rfl
  · exact Query.ofFields_toFields hq

theorem namesLevel_logLevel_iff (h : ofFields fields = .ok s) :
    s.logLevel.NamesLevel ↔ ∀ d, Data.get? fields "log_level" = some d → d.NamesLevel := by
  rw [(ofFields_eq_ok_iff.mp h).2.2.2.1, fieldOr]
  cases Data.get? fields "log_level" with
  | none =>
      have hdefault : (Data.str "WARNING").NamesLevel := ⟨_, rfl, by decide⟩
      simp [hdefault]
  | some d => simp

/-- Settings are read exactly from data whose sections pass their checks. The query settings then
satisfy all that is asked of query settings, so an evaluator takes them as they are. The log level
is a known one exactly if the data have none or have a known one, and then it is found. -/
theorem ofFields_valid_iff (fields : Fields) :
    ((∃ s, ofFields fields = .ok s) ↔ Accepts fields) ∧
      ∀ s, ofFields fields = .ok s →
        Query.Accepts s.query.toFields ∧
        Query.ofFields s.query.toFields = .ok s.query ∧
        (checkLevel s.logLevel = .ok () ↔
          ∀ d, Data.get? fields "log_level" = some d → d.NamesLevel) ∧
        (checkLevel s.logLevel = .ok () →
          ∃ name level, s.logLevel = .str name ∧ Clausal.Session.levelOf s = .ok level ∧
            Log.levelName level = Log.upperName name) := by
  refine ⟨exists_ofFields_iff, fun s h => ?_⟩
  have hquery := query_ofFields_toFields h
  refine ⟨Query.exists_ofFields_iff.mp ⟨_, hquery⟩, hquery, ?_, fun hlevel => ?_⟩
  · rw [checkLevel_eq_ok_iff, namesLevel_logLevel_iff h]
  · exact exists_levelOf (checkLevel_eq_ok_iff.mp hlevel)

/-- A level in small letters beside query settings with a depth limit. -/
theorem ofFields_valid_iff_info :
    ∃ s, ofFields [("query", .map [("max_depth", .int 3), ("strategy", .str "baseline")]),
        ("log_level", .str "info")] = .ok s ∧
      Query.ofFields s.query.toFields = .ok s.query ∧
      ∃ level, Clausal.Session.levelOf s = .ok level ∧ Log.levelName level = "INFO" := by
  obtain ⟨s, hs⟩ : ∃ s, ofFields [("query", .map [("max_depth", .int 3),
      ("strategy", .str "baseline")]), ("log_level", .str "info")] = .ok s := ⟨_, rfl⟩
  obtain ⟨-, hquery, hlevel, hfound⟩ := (ofFields_valid_iff _).2 s hs
  obtain ⟨name, level, hname, hl, hn⟩ := hfound (hlevel.mpr fun d hd => by
    cases hd
    exact ⟨"info", rfl, by decide⟩)
  have hinfo : s.logLevel = .str "info" := by
    cases hs
    rfl
  obtain rfl : "info" = name := by simpa [hinfo] using hname
  exact ⟨s, hs, hquery, level, hl, hn⟩

/-- An unknown level is read without a word. Settings built with it are refused, and it is missed
only when the log is opened. -/
theorem ofFields_takes_level :
    ∃ s, ofFields [("log_level", .str "LOUD")] = .ok s ∧
      build [("log_level", .str "LOUD")] = .error (.settings (.level "'LOUD'")) ∧
      checkLevel s.logLevel = .error (.settings (.level "'LOUD'")) ∧
      Clausal.Session.levelOf s = .error (.settings .noLevel) :=
  ⟨_, rfl, rfl, rfl, rfl⟩

end Settings

end Clausal
