import Clausal.Proofs.Search.Derivation
import Clausal.Proofs.Term.Leaves
import Mathlib.Data.List.Basic
import Mathlib.Logic.Function.Basic

/-!
# Copies of clauses have variables of their own

A search starts with names that have no `#`. Each copy of a clause appends one number to the names
of its variables, and this number has not been used before: it counts the copies, or it is the depth
of the state. So a substitution can be chosen freely for the variables of a copy without changing
what it does to the names that stand in the state.
-/

namespace Clausal

/-! ## Names -/

/-- A name without the sign that sets off a suffix. -/
def HashFree (x : String) : Prop := '#' ∉ x.toList

instance : DecidablePred HashFree := fun x => inferInstanceAs (Decidable ('#' ∉ x.toList))

theorem hashFree_toString (k : Nat) : HashFree (toString k) := by
  intro hmem
  rw [Nat.toString_eq_repr, Nat.toList_repr] at hmem
  have hdigit := Nat.isDigit_of_mem_toDigits (by omega) (by omega) hmem
  simp at hdigit

theorem toString_nat_injective : Function.Injective (toString : Nat → String) := by
  intro j k h
  have hdigits : Nat.toDigits 10 j = Nat.toDigits 10 k := by
    rw [← Nat.toList_repr, ← Nat.toList_repr, ← Nat.toString_eq_repr, ← Nat.toString_eq_repr, h]
  rw [← @Nat.ofDigitChars_toDigits 10 j (by omega) (by omega), hdigits,
    Nat.ofDigitChars_toDigits (by omega) (by omega)]

theorem toList_suffixed (suffix name : String) :
    (suffixed suffix name).toList = name.toList ++ '#' :: suffix.toList := by
  simp [suffixed]

theorem not_hashFree_suffixed (suffix name : String) : ¬ HashFree (suffixed suffix name) := by
  simp [HashFree, toList_suffixed]

theorem suffixed_injective (suffix : String) : Function.Injective (suffixed suffix) := by
  intro x y h
  have hlist := congrArg String.toList h
  rw [toList_suffixed, toList_suffixed] at hlist
  exact String.toList_inj.mp (List.append_cancel_right hlist)

theorem eq_of_suffixed_eq {a b x y : String} (ha : HashFree a) (hx : HashFree x)
    (h : suffixed a x = suffixed b y) : a = b := by
  have hlist := congrArg String.toList h
  rw [toList_suffixed, toList_suffixed] at hlist
  exact String.toList_inj.mp ((List.append_cons_inj_of_notMem hx ha).mp hlist).2.2

/-- A name that can stand in a search before the copies with a number are made. -/
def IsOld (k : Nat) (x : String) : Prop :=
  HashFree x ∨ ∃ j v, j < k ∧ HashFree v ∧ x = suffixed (toString j) v

theorem IsOld.mono {j k : Nat} {x : String} (h : IsOld j x) (hjk : j ≤ k) : IsOld k x := by
  rcases h with hfree | ⟨i, v, hi, hv, rfl⟩
  · exact .inl hfree
  · exact .inr ⟨i, v, by omega, hv, rfl⟩

theorem isOld_suffixed {v : String} (k : Nat) (hv : HashFree v) :
    IsOld (k + 1) (suffixed (toString k) v) :=
  .inr ⟨k, v, by omega, hv, rfl⟩

theorem IsOld.ne_suffixed {k : Nat} {x : String} (h : IsOld k x) (v : String) :
    suffixed (toString k) v ≠ x := by
  rintro rfl
  rcases h with hfree | ⟨j, w, hj, hw, heq⟩
  · exact not_hashFree_suffixed _ v hfree
  · have hjk := toString_nat_injective (eq_of_suffixed_eq (hashFree_toString j) hw heq.symm)
    omega

/-- The variables of a copy can be given any values. -/
theorem exists_extension (k : Nat) (θ σ : String → Term) :
    ∃ η : String → Term, (∀ x, IsOld k x → η x = θ x) ∧ ∀ v, η (suffixed (toString k) v) = σ v := by
  refine ⟨Function.extend (suffixed (toString k)) σ θ, fun x hx => ?_, fun v => ?_⟩
  · refine Function.extend_apply' _ _ _ ?_
    rintro ⟨v, hv⟩
    exact hx.ne_suffixed v hv
  · exact (suffixed_injective _).extend_apply σ θ v

/-- Names without `#` are all renamed in one step. -/
theorem renameVar_eq {names : List String} {x : String} (hnames : ∀ y ∈ names, HashFree y)
    (hx : x ∈ names) (suffix : String) : renameVar names suffix x = suffixed suffix x := by
  have hnew : suffixed suffix x ∉ names := fun h => not_hashFree_suffixed suffix x (hnames _ h)
  have hlen : names.length ≠ 0 := by
    rintro h
    simp [List.length_eq_zero_iff.mp h] at hx
  obtain ⟨n, hn⟩ := Nat.exists_eq_add_one_of_ne_zero hlen
  rw [renameVar, hn, renamed, if_pos (by simpa using hx)]
  cases n with
  | zero => rfl
  | succ n => rw [renamed, if_neg (by simpa using hnew)]

/-! ## Terms of programs and of states -/

namespace Term

def HashFree (u : Term) : Prop := ∀ x ∈ u.vars, Clausal.HashFree x

instance : DecidablePred HashFree := fun u =>
  inferInstanceAs (Decidable (∀ x ∈ u.vars, Clausal.HashFree x))

/-- A term with a property as it stands in a program: its names have no `#`. -/
def InProgram (Q : Term → Prop) (u : Term) : Prop := Q u ∧ u.HashFree

instance (Q : Term → Prop) [DecidablePred Q] : DecidablePred (InProgram Q) := fun u =>
  inferInstanceAs (Decidable (Q u ∧ u.HashFree))

/-- A term with a property as it stands in a state, before the copies with a number are made. -/
def InState (Q : Term → Prop) (k : Nat) (u : Term) : Prop := Q u ∧ ∀ x ∈ u.vars, IsOld k x

/-- Floating-point leaves are finite and names have no `#`. -/
abbrev IsPlain : Term → Prop := InProgram IsFinite

/-- A property that arguments and renamed copies inherit. -/
structure Copied (Q : Term → Prop) : Prop where
  hereditary : Hereditary Q
  mapVars : ∀ {u}, Q u → ∀ ρ, Q (u.mapVars ρ)

theorem copied_isFinite : Copied IsFinite :=
  ⟨hereditary_isFinite, fun {u} h ρ => (isFinite_mapVars ρ u).trans h⟩

variable {Q Q' : Term → Prop} {k : Nat} {u : Term}

theorem InProgram.inState (h : u.InProgram Q) (k : Nat) : u.InState Q k :=
  ⟨h.1, fun x hx => .inl (h.2 x hx)⟩

theorem InState.mono {j : Nat} (h : u.InState Q j) (hjk : j ≤ k) : u.InState Q k :=
  ⟨h.1, fun x hx => (h.2 x hx).mono hjk⟩

theorem InState.imp (h : u.InState Q k) (hQ : Q u → Q' u) : u.InState Q' k :=
  ⟨hQ h.1, h.2⟩

theorem InState.apply_eq (h : u.InState Q k) {θ η : String → Term}
    (hη : ∀ x, IsOld k x → η x = θ x) : u.apply η = u.apply θ :=
  apply_congr fun x hx => hη x (h.2 x hx)

theorem Hereditary.inState (hQ : Hereditary Q) (k : Nat) : Hereditary (InState Q k) := by
  intro f args h a ha
  exact ⟨hQ f args h.1 a ha, fun x hx => h.2 x (mem_vars_compound.mpr ⟨a, ha, hx⟩)⟩

/-- Renames variables as a copy with a number does. -/
def Renames (k : Nat) (ρ : String → String) (t : Term) : Prop :=
  ∀ x ∈ t.vars, ρ x = suffixed (toString k) x

theorem renames_renameVar {names : List String}
    (hnames : ∀ y ∈ names, Clausal.HashFree y) {t : Term} (ht : ∀ x ∈ t.vars, x ∈ names) (k : Nat) :
    t.Renames k (renameVar names.eraseDups (toString k)) := by
  intro x hx
  refine renameVar_eq (fun y hy => hnames y ?_) ?_ (toString k)
  · simpa using hy
  · simpa using ht x hx

/-- The names in a renamed term carry the number of the copy. -/
theorem Renames.exists_of_mem_vars {ρ : String → String} (h : u.Renames k ρ) {x : String}
    (hx : x ∈ (u.mapVars ρ).vars) : ∃ v ∈ u.vars, x = suffixed (toString k) v := by
  obtain ⟨v, hv, rfl⟩ := mem_vars_mapVars.mp hx
  exact ⟨v, hv, h v hv⟩

theorem InProgram.inState_mapVars (hQ : Copied Q) {ρ : String → String} (h : u.InProgram Q)
    (hρ : u.Renames k ρ) : (u.mapVars ρ).InState Q (k + 1) := by
  refine ⟨hQ.mapVars h.1 ρ, fun x hx => ?_⟩
  obtain ⟨v, hv, rfl⟩ := hρ.exists_of_mem_vars hx
  exact isOld_suffixed k (h.2 v hv)

end Term

/-! ## Clauses -/

def Fact.All (P : Term → Prop) (f : Fact) : Prop := ∀ a ∈ f.args, P a

def Goal.All (P : Term → Prop) (g : Goal) : Prop := ∀ a ∈ g.args, P a

def Rule.All (P : Term → Prop) (r : Rule) : Prop := r.head.All P ∧ ∀ g ∈ r.body, g.All P

/-- All terms of all clauses have the property. -/
def KnowledgeBase.All (P : Term → Prop) (kb : KnowledgeBase) : Prop :=
  (∀ f ∈ kb.facts.all, f.All P) ∧ ∀ r ∈ kb.rules.all, r.All P

section Decidable

variable (P : Term → Prop) [DecidablePred P]

instance : DecidablePred (Fact.All P) := fun f => inferInstanceAs (Decidable (∀ a ∈ f.args, P a))

instance : DecidablePred (Goal.All P) := fun g => inferInstanceAs (Decidable (∀ a ∈ g.args, P a))

instance : DecidablePred (Rule.All P) := fun r =>
  inferInstanceAs (Decidable (r.head.All P ∧ ∀ g ∈ r.body, g.All P))

instance : DecidablePred (KnowledgeBase.All P) := fun kb =>
  inferInstanceAs (Decidable ((∀ f ∈ kb.facts.all, f.All P) ∧ ∀ r ∈ kb.rules.all, r.All P))

end Decidable

theorem Fact.All.hashFree {f : Fact} (h : f.All Term.HashFree) {x : String} (hx : x ∈ f.vars) :
    HashFree x := by
  obtain ⟨a, ha, hxa⟩ := Term.mem_varsAll.mp hx
  exact h a ha x hxa

theorem Rule.All.hashFree {r : Rule} (h : r.All Term.HashFree) {x : String} (hx : x ∈ r.vars) :
    HashFree x := by
  obtain hhead | ⟨g, hg, hxg⟩ := Rule.mem_vars.mp hx
  · exact h.1.hashFree hhead
  · obtain ⟨a, ha, hxa⟩ := Term.mem_varsAll.mp hxg
    exact h.2 g hg a ha x hxa

theorem Rule.All.mono {P P' : Term → Prop} {r : Rule} (h : r.All P) (hP : ∀ u, P u → P' u) :
    r.All P' :=
  ⟨fun a ha => hP a (h.1 a ha), fun g hg a ha => hP a (h.2 g hg a ha)⟩

theorem KnowledgeBase.All.mono {P P' : Term → Prop} {kb : KnowledgeBase} (h : kb.All P)
    (hP : ∀ u, P u → P' u) : kb.All P' :=
  ⟨fun f hf a ha => hP a (h.1 f hf a ha), fun r hr => (h.2 r hr).mono hP⟩

theorem KnowledgeBase.All.inProgram {kb : KnowledgeBase} (h : kb.All Term.HashFree) :
    kb.All (Term.InProgram fun _ => True) :=
  h.mono fun _ hfree => ⟨trivial, hfree⟩

theorem Goal.All.apply_eq {Q : Term → Prop} {k : Nat} {g : Goal} (h : g.All (Term.InState Q k))
    {θ η : String → Term} (hη : ∀ x, IsOld k x → η x = θ x) : g.apply η = g.apply θ := by
  refine Goal.apply_congr fun x hx => ?_
  obtain ⟨a, ha, hxa⟩ := Term.mem_varsAll.mp hx
  exact hη x ((h a ha).2 x hxa)

theorem Goal.All.mono {Q : Term → Prop} {j k : Nat} {g : Goal} (h : g.All (Term.InState Q j))
    (hjk : j ≤ k) : g.All (Term.InState Q k) :=
  fun a ha => (h a ha).mono hjk

theorem map_apply_mapVarsAll_eq {k : Nat} {ρ : String → String} {ts : List Term}
    (hρ : ∀ t ∈ ts, t.Renames k ρ) {η σ : String → Term}
    (hη : ∀ v, η (suffixed (toString k) v) = σ v) :
    (Term.mapVarsAll ρ ts).map (Term.apply η) = ts.map (Term.apply σ) := by
  rw [Term.map_apply_mapVarsAll]
  refine List.map_congr_left fun t ht => Term.apply_congr fun x hx => ?_
  rw [hρ t ht x hx, hη]

/-! ## The numbers of copies -/

namespace Search

/-- The number that the next copy at a depth gets. -/
def Progress.fresh (mode : RenamingMode) (depth : Nat) (p : Progress) : Nat :=
  match mode with
  | .depth => depth
  | .application => p.applications + 1

variable {mode : RenamingMode} {depth : Nat} {p q : Progress}

theorem fst_nextSuffix (mode : RenamingMode) (depth : Nat) (p : Progress) :
    (p.nextSuffix mode depth).1 = toString (p.fresh mode depth) := by
  cases mode <;> rfl

theorem fresh_lt_nextSuffix (mode : RenamingMode) (depth : Nat) (p : Progress) :
    p.fresh mode depth < (p.nextSuffix mode depth).2.fresh mode (depth + 1) := by
  cases mode <;> simp [Progress.fresh, Progress.nextSuffix]

theorem fresh_mono {depth' : Nat} (hdepth : depth ≤ depth')
    (hp : p.applications ≤ q.applications) : p.fresh mode depth ≤ q.fresh mode depth' := by
  cases mode with
  | depth => exact hdepth
  | application => exact Nat.succ_le_succ hp

/-! ## Copies -/

/-- A copy of a fact with variables carries the next number. -/
theorem copyFact_eq {f : Fact} (hf : f.All Term.HashFree) (hground : f.isGround = false)
    (mode : RenamingMode) (depth : Nat) (p : Progress) :
    ∃ ρ, (∀ a ∈ f.args, a.Renames (p.fresh mode depth) ρ) ∧
      copyFact mode depth f p = (f.mapVars ρ, (p.nextSuffix mode depth).2) := by
  refine ⟨renameVar f.vars.eraseDups (toString (p.fresh mode depth)), fun a ha => ?_, ?_⟩
  · exact Term.renames_renameVar (fun y => hf.hashFree)
      (fun x hx => Term.mem_varsAll.mpr ⟨a, ha, hx⟩) _
  · rw [copyFact, hground, ← fst_nextSuffix]
    rfl

theorem copyRule_eq {r : Rule} (hr : r.All Term.HashFree) (mode : RenamingMode) (depth : Nat)
    (p : Progress) :
    ∃ ρ, (∀ a ∈ r.head.args, a.Renames (p.fresh mode depth) ρ) ∧
      (∀ g ∈ r.body, ∀ a ∈ g.args, a.Renames (p.fresh mode depth) ρ) ∧
      copyRule mode depth r p = (r.mapVars ρ, (p.nextSuffix mode depth).2) := by
  refine ⟨renameVar r.vars.eraseDups (toString (p.fresh mode depth)), fun a ha => ?_,
    fun g hg a ha => ?_, ?_⟩
  · exact Term.renames_renameVar (fun y => hr.hashFree)
      (fun x hx => Rule.mem_vars.mpr (.inl (Term.mem_varsAll.mpr ⟨a, ha, hx⟩))) _
  · exact Term.renames_renameVar (fun y => hr.hashFree)
      (fun x hx => Rule.mem_vars.mpr (.inr ⟨g, hg, Term.mem_varsAll.mpr ⟨a, ha, hx⟩⟩)) _
  · rw [copyRule, ← fst_nextSuffix]
    rfl

theorem stats_copyFact (mode : RenamingMode) (depth : Nat) (f : Fact) (p : Progress) :
    (copyFact mode depth f p).2.stats = p.stats := by
  rw [copyFact]
  split
  · rfl
  · cases mode <;> rfl

theorem stats_copyRule (mode : RenamingMode) (depth : Nat) (r : Rule) (p : Progress) :
    (copyRule mode depth r p).2.stats = p.stats := by
  cases mode <;> rfl

section Counts

variable {q : Progress} (hq : q.applications = p.applications)

include hq

/-- What a copy looks like depends on the number of copies before it, not on the other counts. -/
theorem copyFact_of_applications (mode : RenamingMode) (depth : Nat) (f : Fact) :
    (copyFact mode depth f q).1 = (copyFact mode depth f p).1 ∧
      (copyFact mode depth f q).2.applications = (copyFact mode depth f p).2.applications := by
  rw [copyFact, copyFact]
  split
  · exact ⟨rfl, hq⟩
  · cases mode with
    | depth => exact ⟨rfl, hq⟩
    | application => simp [Progress.nextSuffix, hq]

theorem copyRule_of_applications (mode : RenamingMode) (depth : Nat) (r : Rule) :
    (copyRule mode depth r q).1 = (copyRule mode depth r p).1 ∧
      (copyRule mode depth r q).2.applications = (copyRule mode depth r p).2.applications := by
  rw [copyRule, copyRule]
  cases mode with
  | depth => exact ⟨rfl, hq⟩
  | application => simp [Progress.nextSuffix, hq]

end Counts

/-- The names of a copy of a fact with variables have the next number. -/
theorem exists_of_mem_vars_copyFact {f : Fact} (hf : f.All Term.HashFree)
    (hground : f.isGround = false) {x : String} (hx : x ∈ (copyFact mode depth f p).1.vars) :
    ∃ v, x = suffixed (toString (p.fresh mode depth)) v := by
  obtain ⟨ρ, hρ, heq⟩ := copyFact_eq hf hground mode depth p
  rw [heq, Fact.vars, Fact.mapVars, Term.mapVarsAll_eq] at hx
  obtain ⟨a, ha, hxa⟩ := Term.mem_varsAll.mp hx
  obtain ⟨u, hu, rfl⟩ := List.mem_map.mp ha
  obtain ⟨v, _, hv⟩ := (hρ u hu).exists_of_mem_vars hxa
  exact ⟨v, hv⟩

theorem exists_of_mem_vars_copyRule {r : Rule} (hr : r.All Term.HashFree) {x : String}
    (hx : x ∈ (copyRule mode depth r p).1.vars) :
    ∃ v, x = suffixed (toString (p.fresh mode depth)) v := by
  obtain ⟨ρ, hhead, hbody, heq⟩ := copyRule_eq hr mode depth p
  have hmapped : ∀ ts : List Term, (∀ u ∈ ts, u.Renames (p.fresh mode depth) ρ) →
      x ∈ Term.varsAll (Term.mapVarsAll ρ ts) → ∃ v,
      x = suffixed (toString (p.fresh mode depth)) v := by
    intro ts hts hxs
    rw [Term.mapVarsAll_eq] at hxs
    obtain ⟨a, ha, hxa⟩ := Term.mem_varsAll.mp hxs
    obtain ⟨u, hu, rfl⟩ := List.mem_map.mp ha
    obtain ⟨v, _, hv⟩ := (hts u hu).exists_of_mem_vars hxa
    exact ⟨v, hv⟩
  rw [heq] at hx
  obtain hx | ⟨g', hg', hxg⟩ := Rule.mem_vars.mp hx
  · exact hmapped _ hhead hx
  · obtain ⟨g, hg, rfl⟩ := List.mem_map.mp hg'
    exact hmapped _ (hbody g hg) hxg

theorem fresh_le_copyFact (mode : RenamingMode) (depth : Nat) (f : Fact) (p : Progress) :
    p.fresh mode depth ≤ (copyFact mode depth f p).2.fresh mode (depth + 1) := by
  rw [copyFact]
  split
  · exact fresh_mono (Nat.le_succ _) (Nat.le_refl _)
  · exact (fresh_lt_nextSuffix mode depth p).le

/-- Any instance of a fact can be had as an instance of its copy, with everything
old left as it is. -/
theorem exists_extension_copyFact {f : Fact} (hf : f.All Term.HashFree) (mode : RenamingMode)
    (depth : Nat) (p : Progress) (θ σ : String → Term) :
    ∃ η : String → Term, (∀ x, IsOld (p.fresh mode depth) x → η x = θ x) ∧
      (copyFact mode depth f p).1.args.map (Term.apply η) = f.args.map (Term.apply σ) := by
  cases hground : f.isGround with
  | true =>
      refine ⟨θ, fun x _ => rfl, ?_⟩
      rw [copyFact, if_pos hground, Fact.map_apply_of_isGround hground,
        Fact.map_apply_of_isGround hground]
  | false =>
      obtain ⟨ρ, hρ, heq⟩ := copyFact_eq hf hground mode depth p
      obtain ⟨η, hold, hnew⟩ := exists_extension (p.fresh mode depth) θ σ
      rw [heq]
      exact ⟨η, hold, map_apply_mapVarsAll_eq hρ hnew⟩

theorem exists_extension_copyRule {r : Rule} (hr : r.All Term.HashFree) (mode : RenamingMode)
    (depth : Nat) (p : Progress) (θ σ : String → Term) :
    ∃ η : String → Term, (∀ x, IsOld (p.fresh mode depth) x → η x = θ x) ∧
      (copyRule mode depth r p).1.head.args.map (Term.apply η) = r.head.args.map (Term.apply σ) ∧
      (copyRule mode depth r p).1.body.map (Goal.apply η) = r.body.map (Goal.apply σ) := by
  obtain ⟨ρ, hhead, hbody, heq⟩ := copyRule_eq hr mode depth p
  obtain ⟨η, hold, hnew⟩ := exists_extension (p.fresh mode depth) θ σ
  rw [heq]
  refine ⟨η, hold, map_apply_mapVarsAll_eq hhead hnew, ?_⟩
  change (r.body.map (Goal.mapVars _)).map (Goal.apply η) = _
  rw [List.map_map]
  refine List.map_congr_left fun g hg => ?_
  rw [Function.comp_apply, Goal.apply, Goal.apply]
  congr 1
  exact map_apply_mapVarsAll_eq (hbody g hg) hnew

section Copies

variable {Q : Term → Prop} (hQ : Term.Copied Q)

include hQ

theorem inState_copyFact {f : Fact} (hf : f.All (Term.InProgram Q)) (mode : RenamingMode)
    (depth : Nat) (p : Progress) :
    (copyFact mode depth f p).1.All
      (Term.InState Q ((copyFact mode depth f p).2.fresh mode (depth + 1))) := by
  cases hground : f.isGround with
  | true =>
      intro a ha
      rw [copyFact, if_pos hground] at ha ⊢
      exact (hf a ha).inState _
  | false =>
      obtain ⟨ρ, hρ, heq⟩ := copyFact_eq (fun a ha => (hf a ha).2) hground mode depth p
      rw [heq]
      intro a ha
      rw [Fact.mapVars, Term.mapVarsAll_eq] at ha
      obtain ⟨u, hu, rfl⟩ := List.mem_map.mp ha
      exact ((hf u hu).inState_mapVars hQ (hρ u hu)).mono (fresh_lt_nextSuffix mode depth p)

theorem inState_copyRule {r : Rule} (hr : r.All (Term.InProgram Q)) (mode : RenamingMode)
    (depth : Nat) (p : Progress) :
    (copyRule mode depth r p).1.All
      (Term.InState Q ((copyRule mode depth r p).2.fresh mode (depth + 1))) := by
  obtain ⟨ρ, hhead, hbody, heq⟩ := copyRule_eq (hr.mono fun _ h => h.2) mode depth p
  have hlt := fresh_lt_nextSuffix mode depth p
  rw [heq]
  constructor
  · intro a ha
    change a ∈ Term.mapVarsAll ρ r.head.args at ha
    rw [Term.mapVarsAll_eq] at ha
    obtain ⟨u, hu, rfl⟩ := List.mem_map.mp ha
    exact ((hr.1 u hu).inState_mapVars hQ (hhead u hu)).mono hlt
  · intro g' hg' a ha
    obtain ⟨g, hg, rfl⟩ := List.mem_map.mp hg'
    rw [Goal.mapVars, Term.mapVarsAll_eq] at ha
    obtain ⟨u, hu, rfl⟩ := List.mem_map.mp ha
    exact ((hr.2 g hg u hu).inState_mapVars hQ (hbody g hg u hu)).mono hlt

end Copies

end Search

end Clausal
