import Clausal.Decimal.Binary64
import Mathlib

/-!
# Rounding to the binary format

The number nearest to a fraction depends on its value alone, not on numerator and denominator, and a
number of the format is nearest to its own value.
-/

namespace Clausal.Decimal

/-- The exponent of the last mantissa bit of the numbers around a positive value. -/
structure IsLastBit (v : ℚ) (e : ℤ) : Prop where
  min : -1074 ≤ e
  lt : v < 2 ^ 53 * 2 ^ e
  le : e = -1074 ∨ 2 ^ 52 * 2 ^ e ≤ v

theorem two_pow_mul_zpow (k : Nat) (e : ℤ) : (2 : ℚ) ^ k * 2 ^ e = 2 ^ (e + k) := by
  rw [zpow_add₀ two_ne_zero, zpow_natCast, mul_comm]

theorem two_zpow_lt {e e' : ℤ} (h : e < e') : (2 : ℚ) ^ e < 2 ^ e' :=
  zpow_lt_zpow_right₀ one_lt_two h

theorem two_zpow_le {e e' : ℤ} (h : e ≤ e') : (2 : ℚ) ^ e ≤ 2 ^ e' :=
  zpow_le_zpow_right₀ one_le_two h

theorem IsLastBit.le_of_isLastBit {v : ℚ} {e e' : ℤ} (h : IsLastBit v e)
    (h' : IsLastBit v e') : e ≤ e' := by
  by_contra! hlt
  have hle : 2 ^ 52 * 2 ^ e ≤ v := h.le.resolve_left (by have := h'.min; omega)
  have hlt' : v < 2 ^ 53 * 2 ^ e' := h'.lt
  rw [two_pow_mul_zpow] at hle hlt'
  exact absurd (hle.trans_lt hlt') (not_lt.mpr (two_zpow_le (by push_cast; omega)))

theorem IsLastBit.unique {v : ℚ} {e e' : ℤ} (h : IsLastBit v e) (h' : IsLastBit v e') : e = e' :=
  le_antisymm (h.le_of_isLastBit h') (h'.le_of_isLastBit h)

theorem scaleDown_eq (num : Nat) {den : Nat} (hden : den ≠ 0) (e : ℤ) :
    (scaleDown num den e).2 ≠ 0 ∧
      ((scaleDown num den e).1 : ℚ) / (scaleDown num den e).2 = num / den / 2 ^ e := by
  cases e with
  | ofNat k =>
      refine ⟨by simp [scaleDown, hden], ?_⟩
      simp only [scaleDown, Int.ofNat_eq_natCast, zpow_natCast]
      push_cast
      rw [div_div]
  | negSucc k =>
      refine ⟨hden, ?_⟩
      simp only [scaleDown, zpow_negSucc]
      push_cast
      field_simp

/-- Binary logarithms bound a quotient from both sides. -/
theorem zpow_log2_bounds {num den : Nat} (hnum : num ≠ 0) (hden : den ≠ 0) :
    (2 : ℚ) ^ ((num.log2 : ℤ) - den.log2 - 1) < num / den ∧
      (num : ℚ) / den < 2 ^ ((num.log2 : ℤ) - den.log2 + 1) := by
  have hden0 : (0 : ℚ) < den := by positivity
  have hnumLow : (2 : ℚ) ^ (num.log2 : ℤ) ≤ num := by exact_mod_cast Nat.log2_self_le hnum
  have hnumHigh : (num : ℚ) < 2 ^ ((num.log2 : ℤ) + 1) := by exact_mod_cast Nat.lt_log2_self
  have hdenLow : (2 : ℚ) ^ (den.log2 : ℤ) ≤ den := by exact_mod_cast Nat.log2_self_le hden
  have hdenHigh : (den : ℚ) < 2 ^ ((den.log2 : ℤ) + 1) := by exact_mod_cast Nat.lt_log2_self
  constructor
  · rw [lt_div_iff₀ hden0]
    calc (2 : ℚ) ^ ((num.log2 : ℤ) - den.log2 - 1) * den
        < 2 ^ ((num.log2 : ℤ) - den.log2 - 1) * 2 ^ ((den.log2 : ℤ) + 1) := by gcongr
      _ = 2 ^ (num.log2 : ℤ) := by rw [← zpow_add₀ two_ne_zero]; congr 1; omega
      _ ≤ num := hnumLow
  · rw [div_lt_iff₀ hden0]
    calc (num : ℚ) < 2 ^ ((num.log2 : ℤ) + 1) := hnumHigh
      _ = 2 ^ ((num.log2 : ℤ) - den.log2 + 1) * 2 ^ (den.log2 : ℤ) := by
        rw [← zpow_add₀ two_ne_zero]; congr 1; omega
      _ ≤ 2 ^ ((num.log2 : ℤ) - den.log2 + 1) * den := by gcongr

theorem isLastBit_lastBit {num den : Nat} (hnum : num ≠ 0) (hden : den ≠ 0) :
    IsLastBit (num / den) (lastBit num den) := by
  obtain ⟨hlow, hhigh⟩ := zpow_log2_bounds hnum hden
  set top : ℤ := (num.log2 : ℤ) - den.log2 with htop
  set e : ℤ := max (top - 53) (-1074) with he
  obtain ⟨hd, hscaled⟩ := scaleDown_eq num hden e
  have hcond : 2 ^ 53 * (scaleDown num den e).2 ≤ (scaleDown num den e).1 ↔
      (2 : ℚ) ^ 53 * 2 ^ e ≤ num / den := by
    rw [← le_div_iff₀ (by positivity), ← hscaled, le_div_iff₀ (by positivity)]
    exact_mod_cast Iff.rfl
  have hlast : lastBit num den = if (2 : ℚ) ^ 53 * 2 ^ e ≤ num / den then e + 1 else e := by
    simp only [lastBit, ← htop, ← he, hcond]
  rw [hlast]
  split
  · next hbig =>
    refine ⟨by omega, ?_, .inr ?_⟩
    · calc (num : ℚ) / den < 2 ^ (top + 1) := hhigh
        _ ≤ 2 ^ (e + 1 + (53 : Nat)) := two_zpow_le (by push_cast; omega)
        _ = 2 ^ 53 * 2 ^ (e + 1) := (two_pow_mul_zpow 53 (e + 1)).symm
    · calc (2 : ℚ) ^ 52 * 2 ^ (e + 1) = 2 ^ (e + 1 + (52 : Nat)) := two_pow_mul_zpow 52 (e + 1)
        _ ≤ 2 ^ (e + (53 : Nat)) := two_zpow_le (by push_cast; omega)
        _ = 2 ^ 53 * 2 ^ e := (two_pow_mul_zpow 53 e).symm
        _ ≤ num / den := hbig
  · next hsmall =>
    refine ⟨by omega, not_le.mp hsmall, ?_⟩
    rcases max_choice (top - 53) (-1074) with hmax | hmax
    · right
      have hexp : e = top - 53 := hmax
      calc (2 : ℚ) ^ 52 * 2 ^ e = 2 ^ (e + (52 : Nat)) := two_pow_mul_zpow 52 e
        _ ≤ 2 ^ (top - 1) := two_zpow_le (by push_cast; omega)
        _ ≤ num / den := hlow.le
    · exact .inl hmax

/-- The natural number nearest to a value, a tie to the even one. -/
def nearestNat (r : ℚ) : Nat :=
  if 2 * r > 2 * ⌊r⌋₊ + 1 ∨ (2 * r = 2 * ⌊r⌋₊ + 1 ∧ ⌊r⌋₊ % 2 = 1) then ⌊r⌋₊ + 1 else ⌊r⌋₊

theorem roundDiv_eq (num : Nat) {den : Nat} (hden : den ≠ 0) :
    roundDiv num den = nearestNat (num / den) := by
  have hfloor : ⌊(num : ℚ) / den⌋₊ = num / den := Nat.floor_div_eq_div num den
  have hden0 : (0 : ℚ) < den := by positivity
  have hsplit : (num : ℚ) = den * (num / den : Nat) + (num % den : Nat) := by
    exact_mod_cast (Nat.div_add_mod num den).symm
  have hexcess : 2 * ((num : ℚ) / den) - (2 * (num / den : Nat) + 1) =
      (2 * (num % den : Nat) - den) / den := by
    rw [hsplit]
    field_simp
    ring
  have hlt : den < 2 * (num % den) ↔ 2 * ((num : ℚ) / den) > 2 * (num / den : Nat) + 1 := by
    rw [gt_iff_lt, ← sub_pos (a := 2 * ((num : ℚ) / den)), hexcess,
      div_pos_iff_of_pos_right hden0, sub_pos]
    exact_mod_cast Iff.rfl
  have heq : 2 * (num % den) = den ↔ 2 * ((num : ℚ) / den) = 2 * (num / den : Nat) + 1 := by
    rw [← sub_eq_zero (a := 2 * ((num : ℚ) / den)), hexcess, div_eq_zero_iff,
      or_iff_left hden0.ne', sub_eq_zero]
    exact_mod_cast Iff.rfl
  simp only [roundDiv, nearestNat, hfloor, ← hlt, ← heq]
  simp

theorem nearestNat_natCast (n : Nat) : nearestNat n = n := by
  simp [nearestNat]

theorem nearestNat_eq_zero {r : ℚ} (h : r < 1 / 2) : nearestNat r = 0 := by
  have hfloor : ⌊r⌋₊ = 0 := Nat.floor_eq_zero.mpr (by linarith)
  simp only [nearestNat, hfloor]
  rw [if_neg]
  push_cast
  rintro (hgt | ⟨heq, _⟩) <;> linarith

/-- The magnitude bits of a number in terms of the value that is rounded. -/
theorem nearestMagnitude_eq {num den : Nat} (hnum : num ≠ 0) (hden : den ≠ 0) {e : ℤ}
    (he : IsLastBit (num / den) e) :
    nearestMagnitude num den =
      min ((e + 1074).toNat * 2 ^ 52 + nearestNat (num / den / 2 ^ e)) infiniteMagnitude := by
  obtain rfl : lastBit num den = e := (isLastBit_lastBit hnum hden).unique he
  obtain ⟨hd, hscaled⟩ := scaleDown_eq num hden (lastBit num den)
  rw [nearestMagnitude, if_neg hnum, ← hscaled]
  simp only [roundDiv_eq _ hd]

/-- Rounding depends on the value of a fraction alone. -/
theorem nearestMagnitude_congr {num den num' den' : Nat} (hden : den ≠ 0) (hden' : den' ≠ 0)
    (h : (num : ℚ) / den = num' / den') :
    nearestMagnitude num den = nearestMagnitude num' den' := by
  have hzero : num = 0 ↔ num' = 0 := by
    have hquot : (num : ℚ) / den = 0 ↔ (num' : ℚ) / den' = 0 := by rw [h]
    simpa [hden, hden'] using hquot
  by_cases hnum : num = 0
  · rw [nearestMagnitude, nearestMagnitude, if_pos hnum, if_pos (hzero.mp hnum)]
  · have hnum' : num' ≠ 0 := mt hzero.mpr hnum
    have hlast := isLastBit_lastBit hnum hden
    rw [nearestMagnitude_eq hnum hden hlast, h, nearestMagnitude_eq hnum' hden' (h ▸ hlast)]

theorem nearestMagnitude_of_le {num den : Nat} (hden : den ≠ 0)
    (h : (2 : ℚ) ^ (1100 : ℤ) ≤ num / den) :
    nearestMagnitude num den = infiniteMagnitude := by
  have hnum : num ≠ 0 := by
    rintro rfl
    rw [Nat.cast_zero, zero_div] at h
    exact absurd h (not_le.mpr (by positivity))
  have hlast := isLastBit_lastBit hnum hden
  have hexp : (2 : ℚ) ^ (1100 : ℤ) < 2 ^ (lastBit num den + 53) := by
    calc (2 : ℚ) ^ (1100 : ℤ) ≤ num / den := h
      _ < 2 ^ 53 * 2 ^ lastBit num den := hlast.lt
      _ = 2 ^ (lastBit num den + 53) := two_pow_mul_zpow 53 _
  have hlarge : 1047 < lastBit num den := by
    have := (zpow_lt_zpow_iff_right₀ (by norm_num : (1 : ℚ) < 2)).mp hexp
    omega
  rw [nearestMagnitude_eq hnum hden hlast]
  refine min_eq_right (Nat.le_add_right_of_le ?_)
  exact Nat.mul_le_mul_right _ (by omega)

theorem nearestMagnitude_of_lt {num den : Nat} (hden : den ≠ 0)
    (h : (num : ℚ) / den < 2 ^ (-1100 : ℤ)) : nearestMagnitude num den = 0 := by
  by_cases hnum : num = 0
  · rw [nearestMagnitude, if_pos hnum]
  · have hlast : IsLastBit (num / den) (-1074) := by
      refine ⟨le_rfl, h.trans ?_, .inl rfl⟩
      rw [two_pow_mul_zpow]
      exact two_zpow_lt (by norm_num)
    have hzero : nearestNat ((num : ℚ) / den / 2 ^ (-1074 : ℤ)) = 0 := by
      refine nearestNat_eq_zero ?_
      have hhalf : (1 / 2 : ℚ) * 2 ^ (-1074 : ℤ) = 2 ^ (-1075 : ℤ) := by
        rw [one_div, ← zpow_neg_one, ← zpow_add₀ two_ne_zero]
        norm_num
      rw [div_lt_iff₀ (by positivity), hhalf]
      exact h.trans (two_zpow_lt (by norm_num))
    rw [nearestMagnitude_eq hnum hden hlast, hzero]
    rfl

/-! ## Numbers of the format -/

theorem Parts.fraction_eq (p : Parts) :
    p.fraction.2 ≠ 0 ∧ (p.fraction.1 : ℚ) / p.fraction.2 = p.mantissa * 2 ^ p.exponent := by
  obtain ⟨negative, mantissa, exponent⟩ := p
  cases exponent with
  | ofNat k => exact ⟨by simp [fraction], by simp [fraction]⟩
  | negSucc k => exact ⟨by simp [fraction], by simp [fraction, zpow_negSucc, div_eq_mul_inv]⟩

/-- The pieces of a number of the format: a mantissa of fifty-three bits, with a leading one unless
the exponent is the least one. -/
structure Parts.IsNormal (p : Parts) : Prop where
  min_le : -1074 ≤ p.exponent
  lt : p.mantissa < 2 ^ 53
  le : p.exponent = -1074 ∨ 2 ^ 52 ≤ p.mantissa

/-- The bits of a number apart from its sign. -/
def Parts.magnitude (p : Parts) : Nat := (p.exponent + 1074).toNat * 2 ^ 52 + p.mantissa

theorem Parts.nearestMagnitude_fraction {p : Parts} (hp : p.IsNormal) :
    nearestMagnitude p.fraction.1 p.fraction.2 = min p.magnitude infiniteMagnitude := by
  obtain ⟨hden, hvalue⟩ := p.fraction_eq
  by_cases hzero : p.fraction.1 = 0
  · have hmantissa : p.mantissa = 0 := by
      have hproduct : (p.mantissa : ℚ) * 2 ^ p.exponent = 0 := by rw [← hvalue, hzero]; simp
      exact_mod_cast (mul_eq_zero.mp hproduct).resolve_right (by positivity)
    have hexponent : p.exponent = -1074 := hp.le.resolve_right (by omega)
    rw [nearestMagnitude, if_pos hzero, magnitude, hmantissa, hexponent]
    rfl
  · have hlast : IsLastBit (p.fraction.1 / p.fraction.2) p.exponent := by
      rw [hvalue]
      refine ⟨hp.min_le, ?_, hp.le.imp_right fun h => ?_⟩
      · gcongr
        exact_mod_cast hp.lt
      · gcongr
        exact_mod_cast h
    have hquot : (p.fraction.1 : ℚ) / p.fraction.2 / 2 ^ p.exponent = p.mantissa := by
      rw [hvalue, mul_div_cancel_right₀ _ (by positivity)]
    rw [nearestMagnitude_eq hzero hden hlast, hquot, nearestNat_natCast, magnitude]

open Float.Model in
theorem exists_view_of_isFinite {x : Float} (h : x.isFinite = true) : ∃ p, view x = .finite p := by
  have htoNat : (UnpackedFloat.unpackExponent x.toBits.toBitVec :
      BitVec Format.binary64.exponentBits).toNat = x.toBits.toNat / 2 ^ 52 % 2 ^ 11 := by
    simp [UnpackedFloat.unpackExponent, Nat.shiftRight_eq_div_pow]
  rw [view]
  split
  · next hbiased =>
    -- An exponent field of all ones belongs to an infinity or to what is not a number.
    have hunpack : x.isFinite = false := by
      rw [Float.isFinite, isFinite, unpack, UnpackedFloat.unpack]
      split
      · split <;> rfl
      · next hother => exact (hother (BitVec.eq_of_toNat_eq (htoNat.trans hbiased))).elim
    simp [hunpack] at h
  · split <;> exact ⟨_, rfl⟩

/-- The pieces of a finite number hold all of its bits. -/
theorem isNormal_of_view {x : Float} {p : Parts} (h : view x = .finite p) :
    p.IsNormal ∧ p.magnitude < infiniteMagnitude ∧
      x.toBits.toNat = if p.negative then 2 ^ 63 + p.magnitude else p.magnitude := by
  rw [view] at h
  have hbits : x.toBits.toNat < 2 ^ 64 := x.toBits.toNat_lt
  generalize x.toBits.toNat = bits at hbits h ⊢
  split at h
  · split at h <;> cases h
  · next hinfinite =>
    split at h
    · next hbiased =>
      obtain rfl := View.finite.inj h
      refine ⟨⟨le_rfl, by dsimp only; omega, .inl rfl⟩, ?_, ?_⟩
      · simp only [Parts.magnitude, infiniteMagnitude]
        omega
      · simp only [Parts.magnitude, decide_eq_true_eq]
        split <;> omega
    · next hbiased =>
      obtain rfl := View.finite.inj h
      refine ⟨⟨by dsimp only; omega, by dsimp only; omega, .inr (Nat.le_add_left _ _)⟩, ?_, ?_⟩
      · simp only [Parts.magnitude, infiniteMagnitude]
        omega
      · simp only [Parts.magnitude, decide_eq_true_eq]
        split <;> omega

/-- A finite number is the one nearest to its own value. -/
theorem nearestMagnitude_of_view {x : Float} {p : Parts} (h : view x = .finite p) :
    nearestMagnitude p.fraction.1 p.fraction.2 = p.magnitude ∧
      ofMagnitude p.negative p.magnitude = x := by
  obtain ⟨hnormal, hlt, hbits⟩ := isNormal_of_view h
  constructor
  · rw [Parts.nearestMagnitude_fraction hnormal, Nat.min_eq_left (Nat.le_of_lt hlt)]
  · rw [ofMagnitude, ← hbits, UInt64.ofNat_toNat, Float.ofBits_toBits]

end Clausal.Decimal
