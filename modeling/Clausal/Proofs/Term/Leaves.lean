import Clausal.Proofs.Term.Instance
import Clausal.Term.Text

/-!
# Leaves of terms

Two properties that a term has when all its leaves have them: floating-point leaves are finite, and
integers have a written form. A finite number differs from itself by zero, so a leaf with the first
property is close to itself; infinities and what is not a number are not.
-/

namespace Clausal.Term

/-- A property that compound terms pass on to their arguments. -/
def Hereditary (P : Term → Prop) : Prop :=
  ∀ f args, P (.compound f args) → ∀ a ∈ args, P a

/-- Neither a variable nor a compound term. -/
def isLeaf : Term → Bool
  | .var _ | .compound _ _ => false
  | _ => true

theorem eq_compound_or_isLeaf {t : Term} (h : ∀ x, t ≠ .var x) :
    (∃ f args, t = .compound f args) ∨ t.isLeaf = true := by
  cases t with
  | var x => exact (h x rfl).elim
  | compound f args => exact .inl ⟨f, args, rfl⟩
  | _ => exact .inr rfl

theorem apply_of_isLeaf {t : Term} (h : t.isLeaf = true) (θ : String → Term) : t.apply θ = t := by
  cases t with
  | var _ | compound _ _ => simp [isLeaf] at h
  | _ => rfl

theorem vars_of_isLeaf {t : Term} (h : t.isLeaf = true) : t.vars = [] := by
  cases t with
  | var _ | compound _ _ => simp [isLeaf] at h
  | _ => rfl

/-- Instances of a leaf and of a term that is no variable are equal only if the terms are. -/
theorem eq_of_apply_eq_of_isLeaf {θ : String → Term} {s t : Term} (hs : ∀ x, s ≠ .var x)
    (ht : ∀ x, t ≠ .var x) (hleaf : s.isLeaf = true ∨ t.isLeaf = true)
    (h : s.apply θ = t.apply θ) : s = t := by
  rcases eq_compound_or_isLeaf hs with ⟨f, ss, rfl⟩ | hsl
  · have htl : t.isLeaf = true := by simpa [isLeaf] using hleaf
    rw [apply_of_isLeaf htl, apply_compound] at h
    simp [← h, isLeaf] at htl
  · rcases eq_compound_or_isLeaf ht with ⟨g, ts, rfl⟩ | htl
    · rw [apply_of_isLeaf hsl, apply_compound] at h
      simp [h, isLeaf] at hsl
    · rwa [apply_of_isLeaf hsl, apply_of_isLeaf htl] at h

theorem isLeaf_eq_of_close {s t : Term} (h : s.close t = true) : s.isLeaf = t.isLeaf := by
  cases s <;> cases t <;> simp_all [isLeaf, close]

theorem alike_of_close {s t : Term} (hs : s.isLeaf = true) (h : s.close t = true) :
    Alike s t := by
  cases s <;> cases t <;> simp_all [isLeaf, close, Alike.refl, Alike.float]

mutual

/-- Whether all floating-point leaves are finite numbers. -/
def isFinite : Term → Bool
  | .float x => x.isFinite
  | .compound _ args => isFiniteAll args
  | _ => true

def isFiniteAll : List Term → Bool
  | [] => true
  | t :: ts => isFinite t && isFiniteAll ts

end

theorem isFiniteAll_eq (ts : List Term) : isFiniteAll ts = ts.all isFinite := by
  induction ts with
  | nil => rfl
  | cons t ts ih => simp [isFiniteAll, ih]

theorem hasTextAll_eq (ts : List Term) : hasTextAll ts = ts.all hasText := by
  induction ts with
  | nil => rfl
  | cons t ts ih => simp [hasTextAll, ih]

/-- Floating-point leaves are finite. -/
abbrev IsFinite (t : Term) : Prop := t.isFinite = true

theorem hereditary_isFinite : Hereditary IsFinite := by
  intro f args h a ha
  rw [IsFinite, isFinite, isFiniteAll_eq, List.all_eq_true] at h
  exact h a ha

theorem hereditary_hasText : Hereditary fun t => t.hasText = true := by
  intro f args h a ha
  rw [hasText, hasTextAll_eq, List.all_eq_true] at h
  exact h a ha

theorem hasText_apply {θ : String → Term} {t : Term} :
    (t.apply θ).hasText = true ↔ t.hasText = true ∧ ∀ x ∈ t.vars, (θ x).hasText = true := by
  induction t with
  | var x => simp [apply, hasText, vars]
  | atom _ | int _ | float _ | str _ => simp [apply, hasText, vars]
  | compound f args ih =>
      rw [apply_compound, hasText, hasText, hasTextAll_eq, hasTextAll_eq, List.all_map,
        List.all_eq_true, List.all_eq_true]
      constructor
      · intro h
        refine ⟨fun a ha => ((ih a ha).mp (h a ha)).1, fun x hx => ?_⟩
        obtain ⟨a, ha, hxa⟩ := mem_vars_compound.mp hx
        exact ((ih a ha).mp (h a ha)).2 x hxa
      · rintro ⟨hargs, hvars⟩ a ha
        exact (ih a ha).mpr ⟨hargs a ha, fun x hx => hvars x (mem_vars_compound.mpr ⟨a, ha, hx⟩)⟩

theorem isFinite_mapVars (r : String → String) (t : Term) :
    (t.mapVars r).isFinite = t.isFinite := by
  induction t with
  | var _ | atom _ | int _ | float _ | str _ => rfl
  | compound f args ih =>
      simp only [mapVars, isFinite, isFiniteAll_eq, mapVarsAll_eq, List.all_map]
      rw [Bool.eq_iff_iff, List.all_eq_true, List.all_eq_true]
      exact forall₂_congr fun a ha => by rw [Function.comp_apply, ih a ha]

open Float.Model in
theorem sub_self_unpacked {u : UnpackedFloat} (h : u.isFinite = true) :
    u.sub Format.binary64 u = .zero .positive := by
  cases u with
  | infinity s => exact absurd h Bool.false_ne_true
  | notANumber => exact absurd h Bool.false_ne_true
  | zero s => cases s <;> rfl
  | finite s m e hm =>
      let shifted := (UnpackedFloat.decreaseExponent m e (min e e)).1
      have hsub : UnpackedFloat.sub Format.binary64 (.finite s m e hm) (.finite s m e hm) =
          .normalize Format.binary64 (s.apply shifted - s.apply shifted) (min e e) .positive := rfl
      rw [hsub, Int.sub_self]
      rfl

theorem closeFloats_self {x : Float} (h : x.isFinite = true) : closeFloats x x = true := by
  have hzero : x - x = Float.ofModel (.pack (.zero .positive)) :=
    congrArg (fun u => Float.ofModel (.pack u)) (sub_self_unpacked h)
  rw [closeFloats, hzero]
  decide

theorem close_self {t : Term} (hleaf : t.isLeaf = true) (hfin : t.isFinite = true) :
    t.close t = true := by
  cases t with
  | var _ | compound _ _ => simp [isLeaf] at hleaf
  | float x => exact closeFloats_self hfin
  | _ => simp [close]

end Clausal.Term
