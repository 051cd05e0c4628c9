import Clausal.Proofs.Search.Configured
import Clausal.Proofs.Search.Expansion

/-!
# A search enumerates proofs

The results of a search that comes to its end are listed by skeletons of proofs: each result is the
most general one for its skeleton, and no skeleton occurs twice. Which skeletons are sure to occur
depends on the strategy. The constrained strategy finds those whose numeric leaves hold as soon as
they have their arguments; the baseline strategy finds only such skeletons, and in a definite
program it finds all.
-/

namespace Clausal.Search

/-! ## Lists of results -/

section Lists

variable {α : Type} {old : List Bindings} {Q Q' Q₁ Q₂ : α → Bindings → Prop} {E E' E₁ E₂ : α → Prop}
  {w : Walk}

/-- A walk that comes to its end has found one result for each thing of a list without repetitions,
on which all that are expected stand. -/
def Walk.Lists (old : List Bindings) (Q : α → Bindings → Prop) (E : α → Prop) : Walk → Prop
  | .more f => ∃ found : List (α × Bindings), f.results = (found.map Prod.snd).reverse ++ old ∧
      (found.map Prod.fst).Nodup ∧ (∀ e ∈ found, Q e.1 e.2) ∧ ∀ a, E a → a ∈ found.map Prod.fst
  | .enough f => ∀ r ∈ f.results, r ∈ old ∨ ∃ a, Q a r
  | .failed _ _ => True

theorem Walk.lists_nothing {f : Found} (p : Progress) (h : ∀ a, ¬ E a) :
    (Walk.more { f with progress := p }).Lists f.results Q E :=
  ⟨[], rfl, List.nodup_nil, by simp, fun a ha => (h a ha).elim⟩

theorem Found.lists_add (f : Found) (wanted : Option Nat) {a : α} {b : Bindings} (hQ : Q a b)
    (hE : ∀ a', E a' → a' = a) : (f.add wanted b).Lists f.results Q E := by
  rw [Found.add]
  split
  · intro r hr
    rcases List.mem_cons.mp hr with rfl | hr
    · exact .inr ⟨a, hQ⟩
    · exact .inl hr
  · refine ⟨[(a, b)], rfl, by simp, ?_, fun a' ha' => by simp [hE a' ha']⟩
    intro e he
    obtain rfl := List.mem_singleton.mp he
    exact hQ

/-- Results may be listed by other things, as long as no two of them fall together. -/
theorem Walk.Lists.image {β : Type} {R : β → Bindings → Prop} {F : β → Prop} {φ : α → β}
    (h : w.Lists old Q E) (hinj : ∀ a a' r r', Q a r → Q a' r' → φ a = φ a' → a = a')
    (hQ : ∀ a r, Q a r → R (φ a) r) (hE : ∀ b, F b → ∃ a, E a ∧ φ a = b) : w.Lists old R F := by
  cases w with
  | more f =>
      obtain ⟨found, hresults, hnodup, hfound, hall⟩ := h
      refine ⟨found.map fun e => (φ e.1, e.2), ?_, ?_, ?_, ?_⟩
      · rw [List.map_map]
        exact hresults
      · rw [List.map_map]
        have hpairs : (found.map Prod.fst).Pairwise (· ≠ ·) := hnodup
        rw [List.pairwise_map] at hpairs
        rw [List.Nodup, List.pairwise_map]
        refine hpairs.imp_of_mem fun {e e'} he he' hne heq => hne ?_
        exact hinj _ _ _ _ (hfound e he) (hfound e' he') heq
      · intro e he
        obtain ⟨e', he', rfl⟩ := List.mem_map.mp he
        exact hQ _ _ (hfound e' he')
      · intro b hb
        obtain ⟨a, ha, rfl⟩ := hE b hb
        obtain ⟨e, he, rfl⟩ := List.mem_map.mp (hall a ha)
        rw [List.map_map]
        exact List.mem_map.mpr ⟨e, he, rfl⟩
  | enough f =>
      intro r hr
      rcases h r hr with hold | ⟨a, ha⟩
      · exact .inl hold
      · exact .inr ⟨φ a, hQ a r ha⟩
  | failed e p => trivial

theorem Walk.Lists.mono (h : w.Lists old Q E) (hQ : ∀ a r, Q a r → Q' a r) (hE : ∀ a, E' a → E a) :
    w.Lists old Q' E' :=
  h.image (φ := id) (fun _ _ _ _ _ _ heq => heq) hQ fun a ha => ⟨a, hE a ha, rfl⟩

/-- One walk goes on after another. -/
theorem Walk.Lists.append {f : Found} (h₁ : (Walk.more f).Lists old Q₁ E₁)
    (h₂ : w.Lists f.results Q₂ E₂) (hdisjoint : ∀ a r r', Q₁ a r → ¬ Q₂ a r') :
    w.Lists old (fun a r => Q₁ a r ∨ Q₂ a r) fun a => E₁ a ∨ E₂ a := by
  obtain ⟨found₁, hresults₁, hnodup₁, hfound₁, hall₁⟩ := h₁
  cases w with
  | more f' =>
      obtain ⟨found₂, hresults₂, hnodup₂, hfound₂, hall₂⟩ := h₂
      refine ⟨found₁ ++ found₂, ?_, ?_, ?_, ?_⟩
      · rw [hresults₂, hresults₁, List.map_append, List.reverse_append, List.append_assoc]
      · rw [List.map_append]
        refine List.Nodup.append hnodup₁ hnodup₂ fun a ha₁ ha₂ => ?_
        obtain ⟨e₁, he₁, rfl⟩ := List.mem_map.mp ha₁
        obtain ⟨e₂, he₂, heq⟩ := List.mem_map.mp ha₂
        exact hdisjoint _ _ _ (hfound₁ e₁ he₁) (heq ▸ hfound₂ e₂ he₂)
      · intro e he
        exact (List.mem_append.mp he).imp (hfound₁ e) (hfound₂ e)
      · intro a ha
        rw [List.map_append]
        exact List.mem_append.mpr (ha.imp (hall₁ a) (hall₂ a))
  | enough f' =>
      intro r hr
      rcases h₂ r hr with hold | ⟨a, ha⟩
      · rw [hresults₁] at hold
        rcases List.mem_append.mp hold with hnew | hold
        · obtain ⟨e, he, rfl⟩ := List.mem_map.mp (List.mem_reverse.mp hnew)
          exact .inr ⟨e.1, .inl (hfound₁ e he)⟩
        · exact .inl hold
      · exact .inr ⟨a, .inr ha⟩
  | failed e p => trivial

/-- A walk through the successors of a state lists what they list, one after the other. -/
theorem lists_walkAttempts {go : State → Found → Walk} {as : List (Progress → Attempt)}
    (hgo : ∀ s f, (go s f).Grows f) (has : ∀ a ∈ as, ∀ p, p.applications ≤ (a p).2.applications)
    {Q : Nat → α → Bindings → Prop} {E : Nat → α → Prop}
    (hdisjoint : ∀ i j a r r', Q i a r → Q j a r' → i = j) (f : Found)
    (h : ∀ j attempt, as[j]? = some attempt → ∀ f' o p, f.Before f' →
      attempt f'.progress = (.ok o, p) → (o = none → ∀ a, ¬ E j a) ∧
        ∀ s, o = some s → (go s { f' with progress := p }).Lists f'.results (Q j) (E j)) :
    (walkAttempts go as f).Lists f.results (fun a r => ∃ j, Q j a r)
      fun a => ∃ j, j < as.length ∧ E j a := by
  induction as generalizing f Q E with
  | nil =>
      refine Walk.lists_nothing f.progress ?_
      rintro a ⟨j, hj, _⟩
      simp at hj
  | cons attempt as ih =>
      have hfirst := has attempt List.mem_cons_self f.progress
      have hrest : ∀ f₁ : Found, f.Before f₁ →
          (walkAttempts go as f₁).Lists f₁.results (fun a r => ∃ j, Q (j + 1) a r)
            fun a => ∃ j, j < as.length ∧ E (j + 1) a := by
        intro f₁ hf₁
        refine ih (fun a ha => has a (List.mem_cons_of_mem _ ha)) ?_ f₁ ?_
        · intro i j a r r' hi hj
          exact Nat.succ.inj (hdisjoint _ _ a r r' hi hj)
        · intro j a ha f' o p hf' hattempt
          exact h (j + 1) a ha f' o p (hf₁.trans hf') hattempt
      have hcases : ∀ a, (∃ j, j < (attempt :: as).length ∧ E j a) →
          E 0 a ∨ ∃ j, j < as.length ∧ E (j + 1) a := by
        rintro a ⟨_ | j, hj, ha⟩
        · exact .inl ha
        · exact .inr ⟨j, Nat.lt_of_succ_lt_succ hj, ha⟩
      rw [walkAttempts]
      split
      · trivial
      · next p hattempt =>
        rw [hattempt] at hfirst
        have hnone := (h 0 attempt rfl f none p (.refl f) hattempt).1 rfl
        refine (hrest _ (before_of_applications hfirst)).mono ?_ fun a ha => ?_
        · rintro a r ⟨j, hj⟩
          exact ⟨j + 1, hj⟩
        · exact (hcases a ha).resolve_left (hnone a)
      · next s p hattempt =>
        rw [hattempt] at hfirst
        have hs := (h 0 attempt rfl f (some s) p (.refl f) hattempt).2 s rfl
        split
        · next f' hmore =>
          have hgrows := hgo s { f with progress := p }
          rw [hmore] at hs hgrows
          have hlater := hrest f' ((before_of_applications hfirst).trans hgrows)
          refine (hs.append hlater ?_).mono ?_ hcases
          · rintro a r r' h0 ⟨j, hj⟩
            exact Nat.succ_ne_zero j (hdisjoint _ _ a r' r hj h0)
          · rintro a r (h0 | ⟨j, hj⟩)
            · exact ⟨0, h0⟩
            · exact ⟨j + 1, hj⟩
        · next hstop =>
          cases hwalk : go s { f with progress := p } with
          | more f' => exact (hstop f' hwalk).elim
          | enough f' =>
              rw [hwalk] at hs
              exact fun r hr => (hs r hr).imp_right (Exists.imp fun a ha => ⟨0, ha⟩)
          | failed e q => trivial

end Lists

/-! ## Proofs of the goals of a state -/

/-- A solution of the bindings together with proofs of the goals under it, which
have the skeletons. -/
structure State.Proved (kb : KnowledgeBase) (N : Goal → Prop) (s : State) (Ts : List Skeleton)
    (θ : String → Term) (Ds : List Proof) : Prop where
  bindings : s.bindings.SolvedBy θ
  skeletons : Ds.map Proof.skeleton = Ts
  goals : List.Forall₂ (Proves kb N) Ds (s.goals.map (Goal.apply θ))

/-- Proofs with the skeletons in which built-in goals may wait never have such goals. -/
def State.Settles (kb : KnowledgeBase) (s : State) (Ts : List Skeleton) : Prop :=
  ∀ θ Ds, s.Proved kb (fun g => g.Holds ∨ g.Waits) Ts θ Ds → s.Proved kb Goal.Holds Ts θ Ds

/-- A most general result for skeletons of proofs. -/
structure State.Answer (kb : KnowledgeBase) (strategy : Strategy) (s : State) (Ts : List Skeleton)
    (r : Bindings) : Prop where
  acyclic : r.Acyclic
  sound : ∀ {θ}, r.SolvedBy θ → ∃ Ds, s.Proved kb Goal.Holds Ts θ Ds
  general : ∀ {θ Ds}, s.Proved kb Goal.Holds Ts θ Ds →
    ∃ η : String → Term, r.SolvedBy η ∧ ∀ x, HashFree x → η x = θ x
  settles : strategy = .baseline → s.Settles kb Ts

/-- Skeletons that the strategy is sure to find. -/
structure State.Expects (kb : KnowledgeBase) (strategy : Strategy) (s : State)
    (Ts : List Skeleton) : Prop where
  proved : ∃ θ Ds, s.Proved kb Goal.Holds Ts θ Ds
  baseline : strategy = .baseline → kb.IsDefinite ∧ ∀ g ∈ s.goals, g.IsDefinite
  constrained : strategy = .constrained → s.Settles kb Ts

variable {kb : KnowledgeBase} {N : Goal → Prop} {strategy : Strategy} {s s' : State}
  {Ts : List Skeleton} {θ : String → Term} {Ds : List Proof} {r : Bindings}

theorem State.Proved.length_proofs (h : s.Proved kb N Ts θ Ds) : Ds.length = s.goals.length := by
  simpa using h.goals.length_eq

theorem State.Proved.length (h : s.Proved kb N Ts θ Ds) : Ts.length = s.goals.length := by
  rw [← h.skeletons, List.length_map, h.length_proofs]

theorem State.Answer.length (h : s.Answer kb strategy Ts r) : Ts.length = s.goals.length := by
  obtain ⟨Ds, hproved⟩ := h.sound h.acyclic.solvedBy_image
  exact hproved.length

/-- Without goals there is one proof, and the bindings are its result. -/
theorem answer_of_done (hgoals : s.goals = []) (hb : s.bindings.Acyclic) :
    s.Answer kb strategy [] s.bindings where
  acyclic := hb
  sound hθ := ⟨[], hθ, rfl, by simp [hgoals]⟩
  general h := ⟨_, h.bindings, fun _ _ => rfl⟩
  settles := by
    rintro _ θ Ds ⟨hθ, hskeletons, _⟩
    obtain rfl : Ds = [] := by simpa using hskeletons
    exact ⟨hθ, rfl, by simp [hgoals]⟩

/-! ## One step -/

section Step

variable {t : Task} {sel : Selection} {b₀ : Bindings} {i j k m : Nat}
  (hu : t.options.unifier.occursCheck = true)
  (hkb : t.kb.All (Term.InProgram Term.IsExact))
  (hs : s.Apart Term.IsExact b₀ k)

include hu hkb hs

/-- Propagation keeps a solution under which the goals have proofs. -/
theorem State.Proved.of_propagate (h : s.Proved t.kb Goal.Holds Ts θ Ds) {o : Option Bindings}
    (hprop : propagate t.kb t.options.unifier s.goals s.bindings = .ok o) :
    ∃ c, o = some c ∧ c.SolvedBy θ := by
  have hfinite := hs.imp fun _ => Term.isFinite_of_isExact
  have hderivable : ∀ g ∈ s.goals, Derivable t.kb Eq (g.apply θ) := by
    intro g hg
    obtain ⟨D, _, hD⟩ := exists_left_of_mem h.goals (List.mem_map_of_mem hg)
    exact hD.derivable
  obtain ⟨c, hc, _, hsolved⟩ := propagate_of_solvedBy hu
    (hkb.mono fun _ => Term.InProgram.isPlain) hfinite.bindings h.bindings
    (fun g hg => ⟨hfinite.goals g hg, hderivable g hg⟩) hprop
  exact ⟨c, hc, hsolved⟩

theorem State.Proved.of_selects (h : s.Proved t.kb Goal.Holds Ts θ Ds)
    (hsel : Selects t strategy s sel) : sel.bindings.SolvedBy θ := by
  rcases hsel.bindings_eq with heq | hprop
  · rw [heq]
    exact h.bindings
  · obtain ⟨c, hc, hsolved⟩ := h.of_propagate hu hkb hs hprop
    obtain rfl : sel.bindings = c := by simpa using hc
    exact hsolved

omit hu hkb hs in
/-- A built-in goal has a leaf as its proof. -/
theorem State.Proved.of_builtin (h : s.Proved kb Goal.Holds Ts θ Ds)
    (hsel : SelectsAt t strategy s i sel) (hbuiltin : isBuiltin sel.goal.predicate = true) :
    Ts[i]?.map ProofTree.label = some 0 ∧ (sel.goal.apply θ).Holds := by
  obtain ⟨D, hD, hproves, _⟩ :=
    (forall₂_eraseIdx_iff (getElem?_map_apply hsel.goal θ)).mp h.goals
  obtain ⟨⟨σ, rfl⟩, _, hholds⟩ := (Proves.builtin_iff (g := sel.goal.apply θ) hbuiltin).mp hproves
  rw [← h.skeletons, List.getElem?_map, hD]
  exact ⟨rfl, hholds⟩

theorem select_ne_none_of_expects (h : s.Expects t.kb strategy Ts) {g : Goal} {gs : List Goal}
    (hgoals : s.goals = g :: gs) :
    select t.kb t.options.unifier strategy g gs s.bindings ≠ .ok none := by
  intro hselect
  obtain ⟨θ, Ds, hproved⟩ := h.proved
  rcases select_ok hselect with ⟨_, hprop⟩ | ⟨c, i, _, hsome⟩
  · rw [← hgoals] at hprop
    obtain ⟨c, hc, _⟩ := hproved.of_propagate hu hkb hs hprop
    simp at hc
  · simp at hsome

/-- A built-in goal that is selected on the way to an expected proof does not wait. If all goals
waited under the bindings, they would be leaves that do not hold. -/
theorem State.Expects.ready (h : s.Expects t.kb strategy Ts) (hsel : SelectsAt t strategy s i sel)
    (hpos : ∀ g ∈ s.goals, g.negated = false) (hbuiltin : isBuiltin sel.goal.predicate = true) :
    isReady? sel.goal sel.bindings ≠ some false := by
  have hmem : sel.goal ∈ s.goals := List.mem_of_getElem? hsel.goal
  cases strategy with
  | baseline =>
      have heq := ((h.baseline rfl).2 sel.goal hmem).2 hbuiltin
      rw [isReady?_equal (hpos _ hmem) heq]
      simp
  | constrained =>
      rcases hsel.constrained rfl with hready | hall
      · simp [hready]
      · exfalso
        obtain ⟨θ, Ds, hproved⟩ := h.proved
        have hb := hs.selection Term.hereditary_isExact hu hkb hsel.selects
        have hwaits : ∀ g ∈ s.goals, (g.apply sel.bindings.image).Waits := by
          intro g hg
          rw [Goal.Waits, ← isReady?_eq hb.acyclic]
          exact hall g hg
        -- The proofs have only leaves, so they do not depend on the solution.
        have hleaves : ∀ g D, g ∈ s.goals ∧ Proves t.kb Goal.Holds D (g.apply θ) →
            Proves t.kb (fun g => g.Holds ∨ g.Waits) D (g.apply sel.bindings.image) := by
          rintro g D ⟨hg, hD⟩
          have hleaf : isBuiltin g.predicate = true :=
            (hwaits g hg).isBuiltin (g := g.apply sel.bindings.image) (hpos g hg)
          obtain ⟨hnode, _⟩ := (Proves.builtin_iff (g := g.apply θ) hleaf).mp hD
          exact (Proves.builtin_iff (g := g.apply sel.bindings.image) hleaf).mpr
            ⟨hnode, hpos g hg, .inr (hwaits g hg)⟩
        have hgoals : List.Forall₂ (Proves t.kb fun g => g.Holds ∨ g.Waits) Ds
            (s.goals.map (Goal.apply sel.bindings.image)) := by
          have hproofs := (List.forall₂_map_right_iff.mp hproved.goals).flip
          rw [List.forall₂_map_right_iff]
          have hmembers :
              List.Forall₂ (fun g D => g ∈ s.goals ∧ Proves t.kb Goal.Holds D (g.apply θ))
              s.goals Ds := (List.forall₂_and_left _ _).mpr ⟨fun _ => id, hproofs⟩
          exact (hmembers.imp hleaves).flip
        have hbindings : s.bindings.SolvedBy sel.bindings.image :=
          hb.acyclic.solvedBy_image.of_extends (hsel.selects.sound hu hs.bindings.acyclic).1
        have hholds := (h.constrained rfl _ _ ⟨hbindings, hproved.skeletons, hgoals⟩).goals
        obtain ⟨D, _, hD⟩ := exists_left_of_mem hholds (List.mem_map_of_mem hmem)
        have hleaf := (Proves.builtin_iff (g := sel.goal.apply sel.bindings.image) hbuiltin).mp hD
        exact hleaf.2.2.not_waits hleaf.2.1 (hwaits _ hmem)

theorem State.Expects.exists_solve (h : s.Expects t.kb strategy Ts)
    (hsel : SelectsAt t strategy s i sel) (hpos : ∀ g ∈ s.goals, g.negated = false)
    (hbuiltin : isBuiltin sel.goal.predicate = true) {o : Option Bindings}
    (hsolve : Builtin.solve t.options.unifier sel.goal sel.bindings = .ok o) : ∃ c, o = some c := by
  obtain ⟨θ, Ds, hproved⟩ := h.proved
  have hb := hs.selection Term.hereditary_isExact hu hkb hsel.selects
  have hmem : sel.goal ∈ s.goals := List.mem_of_getElem? hsel.goal
  exact Builtin.exists_of_holds hu hb.acyclic hb.values_isExact
    (fun a ha => (hs.goals _ hmem a ha).1) (hpos _ hmem) (h.ready hu hkb hs hsel hpos hbuiltin)
    (hproved.of_selects hu hkb hs hsel.selects) (hproved.of_builtin hsel hbuiltin).2 hsolve

end Step

namespace Expands

variable {b : Bindings} {i j k m : Nat} {Us : List Skeleton} (h : Expands kb k s.goals b i j m s')

include h

theorem le_length (hi : i < s.goals.length) (hlen : Us.length = s'.goals.length) :
    m ≤ Us.length ∧ i ≤ (Us.drop m).length := by
  rw [List.length_drop, hlen, h.length, List.length_eraseIdx_of_lt hi]
  omega

/-- Proofs after the step, made into proofs before it. -/
theorem proved_down (hext : b.Extends s.bindings) (hN : Reading N)
    (hproved : s'.Proved kb N Us θ Ds) :
    ∃ σ, s.Proved kb N (ProofTree.graft i j m Us) θ (ProofTree.graft i (j, σ) m Ds) ∧
      Grafts kb i m (j, σ) (s.goals.map (Goal.apply θ)) (s'.goals.map (Goal.apply θ)) := by
  obtain ⟨hθ, σ, hgrafts⟩ := h.down hproved.bindings
  refine ⟨σ, ⟨hθ.of_extends hext, ?_, ?_⟩, hgrafts⟩
  · rw [← hproved.skeletons]
    exact ProofTree.map_graft Prod.fst i (j, σ) m Ds
  · exact (hgrafts N Ds hN (by simpa using hproved.length_proofs)).mpr hproved.goals

/-- Proofs before the step, taken apart into proofs after it. -/
theorem proved_up (hi : i < s.goals.length) (hlen : Us.length = s'.goals.length) (hN : Reading N)
    (hθ : b.SolvedBy θ) (hproved : s.Proved kb N (ProofTree.graft i j m Us) θ Ds) :
    ∃ η σ Es, (∀ x, IsOld k x → η x = θ x) ∧ Ds = ProofTree.graft i (j, σ) m Es ∧
      s'.Proved kb N Us η Es ∧
      Grafts kb i m (j, σ) (s.goals.map (Goal.apply θ)) (s'.goals.map (Goal.apply η)) := by
  obtain ⟨hm, hdrop⟩ := h.le_length hi hlen
  obtain ⟨⟨j', σ⟩, Es, rfl, hEs, rfl⟩ :=
    ProofTree.exists_graft_of_map_eq (f := Prod.fst) hm hdrop hproved.skeletons
  have hlength : Es.length = s'.goals.length := by
    rw [← hlen, ← hEs, List.length_map]
  obtain ⟨η, hold, hη, hgrafts⟩ := h.up hN hθ hlength hproved.goals
  have hgoals := (hgrafts N Es hN (by simpa using hlength)).mp hproved.goals
  exact ⟨η, σ, Es, hold, rfl, ⟨hη, hEs, hgoals⟩, hgrafts⟩

theorem settles_down (hext : b.Extends s.bindings)
    (hsettles : s.Settles kb (ProofTree.graft i j m Us)) : s'.Settles kb Us := by
  intro θ Ds hlenient
  obtain ⟨σ, hbefore, hgrafts⟩ := h.proved_down hext .lenient hlenient
  have hlen : Ds.length = (s'.goals.map (Goal.apply θ)).length := by
    simpa using hlenient.length_proofs
  have hstrict := (hgrafts Goal.Holds Ds .holds hlen).mp (hsettles _ _ hbefore).goals
  exact ⟨hlenient.bindings, hlenient.skeletons, hstrict⟩

theorem settles_up (hi : i < s.goals.length) (hlen : Us.length = s'.goals.length)
    (hb : b = s.bindings) (hsettles : s'.Settles kb Us) :
    s.Settles kb (ProofTree.graft i j m Us) := by
  intro θ Ds hlenient
  have hθ : b.SolvedBy θ := hb ▸ hlenient.bindings
  obtain ⟨η, σ, Es, _, rfl, hafter, hgrafts⟩ := h.proved_up hi hlen .lenient hθ hlenient
  have hlen' : Es.length = (s'.goals.map (Goal.apply η)).length := by
    simpa using hafter.length_proofs
  have hstrict := (hgrafts Goal.Holds Es .holds hlen').mpr (hsettles _ _ hafter).goals
  exact ⟨hlenient.bindings, hlenient.skeletons, hstrict⟩

variable (hi : i < s.goals.length) (hext : b.Extends s.bindings)
  (hsolved : ∀ {Ts θ Ds}, s.Proved kb Goal.Holds Ts θ Ds → b.SolvedBy θ)

include hi hext hsolved

theorem answer (hbaseline : strategy = .baseline → b = s.bindings)
    (hanswer : s'.Answer kb strategy Us r) :
    s.Answer kb strategy (ProofTree.graft i j m Us) r where
  acyclic := hanswer.acyclic
  sound := by
    intro θ hθ
    obtain ⟨Ds, hproved⟩ := hanswer.sound hθ
    obtain ⟨σ, hbefore, _⟩ := h.proved_down hext .holds hproved
    exact ⟨_, hbefore⟩
  general := by
    intro θ Ds hproved
    obtain ⟨η, σ, Es, hold, _, hafter, _⟩ :=
      h.proved_up hi hanswer.length .holds (hsolved hproved) hproved
    obtain ⟨ζ, hζ, hsame⟩ := hanswer.general hafter
    exact ⟨ζ, hζ, fun x hx => (hsame x hx).trans (hold x (.inl hx))⟩
  settles hstrategy :=
    h.settles_up hi hanswer.length (hbaseline hstrategy) (hanswer.settles hstrategy)

theorem expects
    (hdefinite : kb.IsDefinite → (∀ g ∈ s.goals, g.IsDefinite) → ∀ g ∈ s'.goals, g.IsDefinite)
    (hexpects : s.Expects kb strategy Ts) (hroot : Ts[i]?.map ProofTree.label = some j) :
    ∃ Us, s'.Expects kb strategy Us ∧ ProofTree.graft i j m Us = Ts := by
  obtain ⟨θ, Ds, hproved⟩ := hexpects.proved
  -- The proof of the goal at the place ends with the clause, so it has the premises of the clause.
  rw [← hproved.skeletons, List.getElem?_map, Option.map_map, Option.map_eq_some_iff] at hroot
  obtain ⟨⟨⟨j', σ⟩, Es⟩, hEs, rfl⟩ := hroot
  have hgraft := ProofTree.graft_of_getElem? hEs
  have hm := h.premises hproved.goals hEs
  let Us := (Es ++ Ds.eraseIdx i).map Proof.skeleton
  have hTs : ProofTree.graft i j' m Us = Ts := by
    rw [← hproved.skeletons, ← hgraft, hm]
    exact (ProofTree.map_graft Prod.fst i (j', σ) m _).symm
  have hlen : Us.length = s'.goals.length := by
    simp [Us, hm, h.length, List.length_eraseIdx, hproved.length_proofs]
  rw [← hTs] at hproved hexpects ⊢
  obtain ⟨η, _, _, _, _, hafter, _⟩ := h.proved_up hi hlen .holds (hsolved hproved) hproved
  refine ⟨Us, ⟨⟨η, _, hafter⟩, fun hstrategy => ?_, fun hstrategy => ?_⟩, rfl⟩
  · obtain ⟨hkb, hgoals⟩ := hexpects.baseline hstrategy
    exact ⟨hkb, hdefinite hkb hgoals⟩
  · exact h.settles_down hext (hexpects.constrained hstrategy)

/-- What is listed for the successor is listed for the state, with the resolved goal put back. -/
theorem lists (hbaseline : strategy = .baseline → b = s.bindings)
    (hdefinite : kb.IsDefinite → (∀ g ∈ s.goals, g.IsDefinite) → ∀ g ∈ s'.goals, g.IsDefinite)
    {w : Walk} {old : List Bindings}
    (hw : w.Lists old (s'.Answer kb strategy) (s'.Expects kb strategy)) :
    w.Lists old (fun Ts r => s.Answer kb strategy Ts r ∧ Ts[i]?.map ProofTree.label = some j)
      fun Ts => s.Expects kb strategy Ts ∧ Ts[i]?.map ProofTree.label = some j := by
  refine hw.image (φ := ProofTree.graft i j m) ?_ ?_ ?_
  · intro Us Us' r r' hUs hUs' heq
    exact ProofTree.graft_injective (h.le_length hi hUs.length).2 (h.le_length hi hUs'.length).2 heq
  · intro Us r hUs
    refine ⟨h.answer hi hext hsolved hbaseline hUs, ?_⟩
    rw [ProofTree.getElem?_graft (h.le_length hi hUs.length).2]
    rfl
  · rintro Ts ⟨hTs, hroot⟩
    exact h.expects hi hext hsolved hdefinite hTs hroot

end Expands

/-! ## Walks -/

section Walk

variable {t : Task} {sel : Selection} {b₀ : Bindings} {i : Nat} {f : Found}
  (hu : t.options.unifier.occursCheck = true)
  (hkb : t.kb.All (Term.InProgram Term.IsExact)) (hpos : t.kb.IsPositive)

include hu hkb

/-- The walk through a successor, seen from the state. -/
theorem lists_of_expands {j k m : Nat} {p : Progress} {w : Walk} {old : List Bindings}
    (hs : s.Apart Term.IsExact b₀ k) (hsel : SelectsAt t strategy s i sel)
    (hexpands : Expands t.kb k s.goals sel.bindings i j m s') (hsucc : Successor t strategy s p s')
    (hw : w.Lists old (s'.Answer t.kb strategy) (s'.Expects t.kb strategy)) :
    w.Lists old (fun Ts r => s.Answer t.kb strategy Ts r ∧ Ts[i]?.map ProofTree.label = some j)
      fun Ts => s.Expects t.kb strategy Ts ∧ Ts[i]?.map ProofTree.label = some j := by
  obtain ⟨hi, _⟩ := List.getElem?_eq_some_iff.mp hsel.goal
  have hext := (hsel.selects.sound hu hs.bindings.acyclic).1
  refine hexpands.lists hi hext ?_ hsel.baseline ?_ hw
  · intro Ts θ Ds hproved
    exact hproved.of_selects hu hkb hs hsel.selects
  · intro hdef
    exact hsucc.forall_goals (fun _ _ hg => hg) (fun _ _ r hr =>
      hdef r (KnowledgeBase.mem_rules_of_mem_rulesFor hr))

theorem lists_builtin {k : Nat} {b : Bindings} {w : Walk} {old : List Bindings}
    (hs : s.Apart Term.IsExact b₀ k) (hsel : SelectsAt t strategy s i sel)
    (hneg : sel.goal.negated = false) (hbuiltin : isBuiltin sel.goal.predicate = true)
    (hsolve : Builtin.solve t.options.unifier sel.goal sel.bindings = .ok (some b))
    (hw : w.Lists old (State.Answer t.kb strategy ⟨sel.rest, b, s.depth + 1⟩)
      (State.Expects t.kb strategy ⟨sel.rest, b, s.depth + 1⟩)) :
    w.Lists old (s.Answer t.kb strategy) (s.Expects t.kb strategy) := by
  have hexpands : Expands t.kb k s.goals sel.bindings i 0 0 ⟨sel.rest, b, s.depth + 1⟩ := by
    rw [hsel.rest]
    exact expands_builtin hu (hs.selection Term.hereditary_isExact hu hkb hsel.selects) hs.goals
      hsel.goal hneg (s.depth + 1) hbuiltin hsolve
  have hsucc : Successor t strategy s {} ⟨sel.rest, b, s.depth + 1⟩ :=
    .builtin hsel.selects hneg hbuiltin hsolve
  refine (lists_of_expands hu hkb hs hsel hexpands hsucc hw).mono ?_ ?_
  · exact fun Ts r hanswer => hanswer.1
  · intro Ts hexpects
    obtain ⟨θ, Ds, hproved⟩ := hexpects.proved
    exact ⟨hexpects, (hproved.of_builtin hsel hbuiltin).1⟩

include hpos

theorem lists_clauses {go : State → Found → Walk} (hgrows : ∀ s f, (go s f).Grows f)
    (hnext : ∀ s' f', s'.Apart Term.IsExact b₀
      (f'.progress.fresh t.options.mode s'.depth) → (∀ g ∈ s'.goals, g.negated = false) →
      (go s' f').Lists f'.results (s'.Answer t.kb strategy) (s'.Expects t.kb strategy))
    (hs : s.Apart Term.IsExact b₀ (f.progress.fresh t.options.mode s.depth))
    (hgoals : ∀ g ∈ s.goals, g.negated = false) (hsel : SelectsAt t strategy s i sel)
    (huser : isBuiltin sel.goal.predicate = false) :
    (walkAttempts go (attempts t sel s.depth) f).Lists f.results (s.Answer t.kb strategy)
      (s.Expects t.kb strategy) := by
  have htries := forall₂_tries hkb sel s.depth
  have hneg := hgoals _ (List.mem_of_getElem? hsel.goal)
  -- A proof of the goals tells which clause the selected goal is resolved with.
  have hclause : ∀ {θ Ts Ds}, s.Proved t.kb Goal.Holds Ts θ Ds → ∃ j σ Es r,
      Ts[i]?.map ProofTree.label = some j ∧ (t.kb.clausesFor sel.goal.predicate)[j]? = some r ∧
        Proves t.kb Goal.Holds (.node (j, σ) Es) (sel.goal.apply θ) := by
    intro θ Ts Ds hproved
    obtain ⟨⟨⟨j, σ⟩, Es⟩, hD, hproves, _⟩ :=
      (forall₂_eraseIdx_iff (getElem?_map_apply hsel.goal θ)).mp hproved.goals
    obtain ⟨_, r, hr, _⟩ := (Proves.user_iff (g := sel.goal.apply θ) huser).mp hproves
    refine ⟨j, σ, Es, r, ?_, hr, hproves⟩
    rw [← hproved.skeletons, List.getElem?_map, hD]
    rfl
  refine Walk.Lists.mono (lists_walkAttempts hgrows (fun a => applications_le_attempts)
    (Q := fun j Ts r => s.Answer t.kb strategy Ts r ∧ Ts[i]?.map ProofTree.label = some j)
    (E := fun j Ts => s.Expects t.kb strategy Ts ∧ Ts[i]?.map ProofTree.label = some j)
    ?_ f ?_) ?_ ?_
  · rintro j j' Ts r r' ⟨_, hj⟩ ⟨_, hj'⟩
    exact Option.some.inj (hj.symm.trans hj')
  · intro j attempt hattempt f' o p hf' hmade
    obtain ⟨r, hr, htry, _⟩ := (forall₂_eraseIdx_iff hattempt).mp htries.flip
    have hs' := hs.mono (fresh_mono (Nat.le_refl s.depth) hf'.applications)
    have hb := hs'.selection Term.hereditary_isExact hu hkb hsel.selects
    constructor
    · rintro rfl Ts ⟨hexpects, hroot⟩
      obtain ⟨θ, Ds, hproved⟩ := hexpects.proved
      obtain ⟨j', σ, Es, r', hroot', hr', hproves⟩ := hclause hproved
      obtain rfl := Option.some.inj (hroot.symm.trans hroot')
      obtain ⟨_, hargs, _⟩ := (Proves.clause_iff (g := sel.goal.apply θ) huser hr).mp hproves
      rcases htry _ _ _ hmade with ⟨harity, _⟩ | ⟨copy, o, hcopy, hunify, ho⟩
      · exact harity
          (by simpa [Goal.apply, Fact.arity, Goal.arity] using congrArg List.length hargs)
      · have hθ := hproved.of_selects hu hkb hs' hsel.selects
        obtain ⟨c, _, rfl, _⟩ :=
          hcopy.exists_of_args hu hb hs'.goals hsel.goal hunify hθ hargs
        simp at ho
    · rintro s' rfl
      have hmem : attempt ∈ attempts t sel s.depth := List.mem_of_getElem? hattempt
      have hsucc : Successor t strategy s f'.progress s' :=
        successor_of_attempts hsel.selects hneg huser hmem (by rw [hmade])
      have hapart := hs'.follows Term.inherited_isExact hu hkb
        (.clause hsel.selects hneg huser hmem hmade)
      have hlists := hnext s' { f' with progress := p } hapart (hsucc.positive hpos hgoals)
      rcases htry _ _ _ hmade with ⟨_, hnone⟩ | ⟨copy, o, hcopy, hunify, ho⟩
      · simp at hnone
      · obtain ⟨c, rfl, rfl⟩ := Option.map_eq_some_iff.mp ho.symm
        have hexpands := expands_clause hu hb hs'.goals hsel.goal hneg (s.depth + 1) huser hr hcopy
          hunify
        rw [← hsel.rest] at hexpands
        exact lists_of_expands hu hkb hs' hsel hexpands hsucc hlists
  · rintro Ts r ⟨j, hanswer, _⟩
    exact hanswer
  · intro Ts hexpects
    obtain ⟨θ, Ds, hproved⟩ := hexpects.proved
    obtain ⟨j, _, _, r, hroot, hr, _⟩ := hclause hproved
    obtain ⟨hj, _⟩ := List.getElem?_eq_some_iff.mp hr
    exact ⟨j, htries.length_eq ▸ hj, hexpects, hroot⟩

/-- A walk through a state without negated goals lists proofs of its goals. -/
theorem lists_walk (n : Nat) (strategy : Strategy) (wanted : Option Nat)
    (hs : s.Apart Term.IsExact b₀ (f.progress.fresh t.options.mode s.depth))
    (hgoals : ∀ g ∈ s.goals, g.negated = false) :
    (walk t n strategy wanted s f).Lists f.results (s.Answer t.kb strategy)
      (s.Expects t.kb strategy) := by
  induction n generalizing s f with
  | zero => trivial
  | succ n ih =>
      have hpositive : ∀ {sel : Selection}, Selects t strategy s sel → sel.goal.negated ≠ true := by
        intro sel hsel hneg
        simp [hgoals _ hsel.goal_mem] at hneg
      refine walk_cases (motive := fun w => w.Lists f.results (s.Answer t.kb strategy)
        (s.Expects t.kb strategy)) ?_ ?_ ?_ ?_ ?_ ?_ ?_ ?_
      · intro e p
        trivial
      · intro hdone
        refine Found.lists_add _ wanted (answer_of_done hdone hs.bindings.acyclic)
          fun Ts hexpects => ?_
        obtain ⟨θ, Ds, hproved⟩ := hexpects.proved
        exact List.length_eq_zero_iff.mp (by rw [hproved.length, hdone]; rfl)
      · intro g gs p hcons hselect _
        exact Walk.lists_nothing p fun Ts hexpects =>
          select_ne_none_of_expects hu hkb hs hexpects hcons hselect
      · intro sel p inside hsel hneg _ _
        exact (hpositive hsel hneg).elim
      · intro sel p inside hsel hneg _ _
        exact (hpositive hsel hneg).elim
      · intro sel p hsel hneg hbuiltin hsolve _
        obtain ⟨i, hat⟩ := hsel.exists_at
        refine Walk.lists_nothing p fun Ts hexpects => ?_
        obtain ⟨c, hc⟩ := hexpects.exists_solve hu hkb hs hat hgoals hbuiltin hsolve
        simp at hc
      · intro sel b p hsel hneg hbuiltin hsolve hp
        obtain ⟨i, hat⟩ := hsel.exists_at
        have hsucc : Successor t strategy s p ⟨sel.rest, b, s.depth + 1⟩ :=
          .builtin hsel hneg hbuiltin hsolve
        have hapart := hs.follows Term.inherited_isExact hu hkb
          (.builtin hsel hneg hbuiltin hsolve (Nat.le_of_eq hp.symm))
        exact lists_builtin hu hkb hs hat hneg hbuiltin hsolve
          (ih (f := { f with progress := p }) hapart (hsucc.positive hpos hgoals))
      · intro sel p hsel hneg huser hp
        obtain ⟨i, hat⟩ := hsel.exists_at
        refine lists_clauses hu hkb hpos (grows_walk t n strategy wanted)
          (fun s' f' => ih) ?_ hgoals hat huser
        exact hs.mono (fresh_mono (Nat.le_refl _) (Nat.le_of_eq hp.symm))

end Walk

end Clausal.Search
