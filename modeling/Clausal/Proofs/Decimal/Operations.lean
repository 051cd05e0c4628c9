import Clausal.Proofs.Decimal.Value

/-!
# Exact arithmetic on floating-point numbers

A sum, a difference, a product or a quotient of two numbers is exact whenever its value is that of a
number of the format: rounding then drops zeros only. The same holds for the number nearest to a
fraction. From halfway behind the largest number on, a fraction has none.
-/

namespace Clausal.Decimal

open Float.Model (Format UnpackedFloat totalExponent)
open Float.Model.UnpackedFloat

/-! ## Rounding what needs no rounding -/

theorem totalExponent_bounds {m : Nat} (hm : 0 < m) (e : Int) :
    (2 : ℚ) ^ (totalExponent m e - 1) ≤ m * 2 ^ e ∧ (m : ℚ) * 2 ^ e < 2 ^ totalExponent m e := by
  have hlow : (2 : ℚ) ^ m.log2 ≤ m := by exact_mod_cast Nat.log2_self_le hm.ne'
  have hhigh : (m : ℚ) < 2 ^ (m.log2 + 1) := by exact_mod_cast Nat.lt_log2_self
  constructor
  · calc (2 : ℚ) ^ (totalExponent m e - 1) = 2 ^ m.log2 * 2 ^ e := by
          rw [two_pow_mul_zpow, totalExponent]; congr 1; omega
      _ ≤ m * 2 ^ e := by gcongr
  · calc (m : ℚ) * 2 ^ e < 2 ^ (m.log2 + 1) * 2 ^ e := by gcongr
      _ = 2 ^ totalExponent m e := by
          rw [two_pow_mul_zpow, totalExponent]; congr 1; push_cast; omega

theorem totalExponent_le_of_le {m m' : Nat} {e e' : Int} (hm : 0 < m) (hm' : 0 < m')
    (h : (m : ℚ) * 2 ^ e ≤ m' * 2 ^ e') : totalExponent m e ≤ totalExponent m' e' := by
  have hlt : (2 : ℚ) ^ (totalExponent m e - 1) < 2 ^ totalExponent m' e' :=
    (totalExponent_bounds hm e).1.trans_lt (h.trans_lt (totalExponent_bounds hm' e').2)
  have := (zpow_lt_zpow_iff_right₀ (by norm_num : (1 : ℚ) < 2)).mp hlt
  omega

theorem targetExponent_eq (t : Int) : Format.binary64.targetExponent t = max (t - 53) (-1074) := rfl

/-- A number of the format has the exponent that rounding wants. -/
theorem targetExponent_of_isNormal {p : Parts} (hp : p.IsNormal) (hm : 0 < p.mantissa) :
    Format.binary64.targetExponent (totalExponent p.mantissa p.exponent) = p.exponent := by
  obtain ⟨hmin, hlt, hle⟩ := hp
  have hhigh : p.mantissa.log2 < 53 := (Nat.log2_lt hm.ne').mpr hlt
  have hlow : p.exponent = -1074 ∨ 52 ≤ p.mantissa.log2 := hle.imp_right (Nat.le_log2 hm.ne').mpr
  rw [targetExponent_eq, totalExponent]
  omega

theorem shiftRight_exact (m k : Nat) :
    ExtendedMantissa.ofMantissaAndAccuracy (m * 2 ^ k) .exact >>> k =
      .ofMantissaAndAccuracy m .exact := by
  induction k generalizing m with
  | zero => rw [pow_zero, mul_one]; rfl
  | succ k ih =>
      have hstep : ExtendedMantissa.ofMantissaAndAccuracy (m * 2 ^ (k + 1)) .exact >>> (k + 1) =
          (ExtendedMantissa.ofMantissaAndAccuracy (m * 2 * 2 ^ k) .exact >>> k).shiftRightOne := by
        rw [pow_succ', ← mul_assoc]
        rfl
      rw [hstep, ih]
      simp [ExtendedMantissa.shiftRightOne, ExtendedMantissa.ofMantissaAndAccuracy]

theorem exists_shift {m n : Nat} {e e' : Int} (h : (m : ℚ) * 2 ^ e = n * 2 ^ e') (he : e ≤ e') :
    ∃ k : Nat, m = n * 2 ^ k ∧ e' = e + k := by
  obtain ⟨k, rfl⟩ := Int.le.dest he
  refine ⟨k, ?_, rfl⟩
  rw [zpow_add₀ two_ne_zero, zpow_natCast, mul_comm ((2 : ℚ) ^ e), ← mul_assoc] at h
  exact_mod_cast mul_right_cancel₀ (zpow_ne_zero e two_ne_zero) h

section Round

variable {p : Parts} (hp : p.IsNormal) (hm : 0 < p.mantissa)

include hp hm

theorem targetExponent_of_value {m : Nat} {e : Int}
    (h : (m : ℚ) * 2 ^ e = p.mantissa * 2 ^ p.exponent) :
    Format.binary64.targetExponent (totalExponent m e) = p.exponent := by
  have hm0 : 0 < m := by
    by_contra hzero
    obtain rfl : m = 0 := by omega
    have hvalue : (p.mantissa : ℚ) * 2 ^ p.exponent ≠ 0 := by positivity
    simp [← h] at hvalue
  rw [← targetExponent_of_isNormal hp hm,
    le_antisymm (totalExponent_le_of_le hm0 hm h.le) (totalExponent_le_of_le hm hm0 h.ge)]

/-- Rounding gives back a number of the format that is written with a longer mantissa. -/
theorem roundWithAccuracy_of_value (s : Sign) {m : Nat} {e : Int}
    (h : (m : ℚ) * 2 ^ e = p.mantissa * 2 ^ p.exponent) (he : e ≤ p.exponent) :
    roundWithAccuracy .binary64 s m e .exact = .finite s p.mantissa p.exponent hm := by
  obtain ⟨k, rfl, hk⟩ := exists_shift h he
  have hfirst : shiftToTargetExponent .binary64 (p.mantissa * 2 ^ k) e .exact =
      (.ofMantissaAndAccuracy p.mantissa .exact, p.exponent) := by
    rw [shiftToTargetExponent, targetExponent_of_value hp hm h, shiftToExponent]
    have hshift : (p.exponent - e).toNat = k := by omega
    rw [hshift, shiftRight_exact, hk]
  have hsecond : shiftToTargetExponent .binary64 p.mantissa p.exponent .exact =
      (.ofMantissaAndAccuracy p.mantissa .exact, p.exponent) := by
    rw [shiftToTargetExponent, targetExponent_of_isNormal hp hm, shiftToExponent, sub_self]
    exact congrArg (_, ·) (add_zero _)
  have hrounded : (ExtendedMantissa.ofMantissaAndAccuracy p.mantissa .exact).roundedMantissa =
    p.mantissa := rfl
  rw [roundWithAccuracy, hfirst]
  simp only [hrounded, hsecond]
  exact dif_neg hm.ne'

theorem round_of_value (s : Sign) {m : Nat} {e : Int}
    (h : (m : ℚ) * 2 ^ e = p.mantissa * 2 ^ p.exponent) :
    UnpackedFloat.round .binary64 s m e = .finite s p.mantissa p.exponent hm := by
  rw [UnpackedFloat.round, targetExponent_of_value hp hm h, decreaseExponent]
  refine roundWithAccuracy_of_value hp hm s ?_ (by omega)
  rw [← h, Nat.shiftLeft_eq, Nat.cast_mul, Nat.cast_pow, mul_assoc, Nat.cast_ofNat,
    two_pow_mul_zpow, sub_add_cancel]

end Round

/-! ## Operations on unpacked numbers -/

/-- An unpacked number of the format has the value. -/
def Holds (u : UnpackedFloat) (v : ℚ) : Prop := ∃ p, Unpacked u p ∧ p.value = v

theorem holds_zero (s : Sign) : Holds (.zero s) 0 := by
  cases s with
  | negative => exact ⟨_, .zero true, Parts.value_zero _ _⟩
  | positive => exact ⟨_, .zero false, Parts.value_zero _ _⟩

section Exact

variable {s : Sign} {m : Nat} {e : Int} (hm : 0 < m) (h : Representable ((s.apply m : ℚ) * 2 ^ e))

include hm h

theorem holds_roundWithAccuracy (he : e ≤ Format.binary64.targetExponent (totalExponent m e)) :
    Holds (roundWithAccuracy .binary64 s m e .exact) ((s.apply m : ℚ) * 2 ^ e) := by
  obtain ⟨p, hp, hmax, hvalue⟩ := representable_iff.mp h
  obtain ⟨rfl, hpos, hsize⟩ := Parts.eq_of_value hm hvalue
  rw [targetExponent_of_value hp hpos hsize] at he
  rw [roundWithAccuracy_of_value hp hpos _ hsize he]
  exact ⟨p, .finite hp hmax hpos, hvalue⟩

theorem holds_round : Holds (UnpackedFloat.round .binary64 s m e) ((s.apply m : ℚ) * 2 ^ e) := by
  obtain ⟨p, hp, hmax, hvalue⟩ := representable_iff.mp h
  obtain ⟨rfl, hpos, hsize⟩ := Parts.eq_of_value hm hvalue
  rw [round_of_value hp hpos _ hsize]
  exact ⟨p, .finite hp hmax hpos, hvalue⟩

end Exact

theorem holds_normalize {n e : Int} (h : Representable (n * 2 ^ e)) (s : Sign) :
    Holds (UnpackedFloat.normalize .binary64 n e s) (n * 2 ^ e) := by
  rcases Int.lt_trichotomy n 0 with hn | rfl | hn
  · have hvalue : (n : ℚ) = Sign.negative.apply ((-n).toNat : Int) := by
      rw [Sign.apply, Int.toNat_of_nonneg (by omega), neg_neg]
    rw [UnpackedFloat.normalize, Int.compare_eq_lt.mpr hn]
    rw [hvalue] at h ⊢
    exact holds_round (by omega) h
  · rw [Int.cast_zero, zero_mul]
    exact holds_zero s
  · have hvalue : (n : ℚ) = Sign.positive.apply (n.toNat : Int) := by
      rw [Sign.apply, Int.toNat_of_nonneg hn.le]
    rw [UnpackedFloat.normalize, Int.compare_eq_gt.mpr hn]
    rw [hvalue] at h ⊢
    exact holds_round (by omega) h

theorem apply_decreaseExponent (s : Sign) (m : Nat) {e t : Int} (ht : t ≤ e) :
    (s.apply (decreaseExponent m e t).1 : ℚ) * 2 ^ t = s.apply m * 2 ^ e := by
  have hsize : ((decreaseExponent m e t).1 : ℚ) * 2 ^ t = m * 2 ^ e := by
    rw [decreaseExponent, Nat.shiftLeft_eq, Nat.cast_mul, Nat.cast_pow, mul_assoc, Nat.cast_ofNat,
      two_pow_mul_zpow]
    congr 2
    omega
  cases s <;> simp only [Sign.apply, Int.cast_neg, Int.cast_natCast, neg_mul, hsize]

section Operations

variable {u w : UnpackedFloat} {v v' : ℚ}

theorem holds_add (hu : Holds u v) (hw : Holds w v') (h : Representable (v + v')) :
    Holds (u.add .binary64 w) (v + v') := by
  obtain ⟨p, hp, rfl⟩ := hu
  obtain ⟨q, hq, rfl⟩ := hw
  cases hp with
  | zero negative =>
      rw [Parts.value_zero, zero_add]
      cases hq with
      | zero negative' =>
          rw [Parts.value_zero, UnpackedFloat.add]
          split <;> exact holds_zero _
      | finite hq hmax hm => exact ⟨q, .finite hq hmax hm, rfl⟩
  | finite hp hmax hm =>
      cases hq with
      | zero negative' =>
          rw [Parts.value_zero, add_zero]
          exact ⟨p, .finite hp hmax hm, rfl⟩
      | finite hq hmax' hm' =>
          -- The mantissas are added at the smaller of the two exponents.
          have hvalue : p.value + q.value = ((p.sign.apply (decreaseExponent p.mantissa p.exponent
              (min p.exponent q.exponent)).1 + q.sign.apply (decreaseExponent q.mantissa q.exponent
              (min p.exponent q.exponent)).1 : Int) : ℚ) * 2 ^ min p.exponent q.exponent := by
            rw [Int.cast_add, add_mul, apply_decreaseExponent _ _ (min_le_left _ _),
              apply_decreaseExponent _ _ (min_le_right _ _), Parts.value_eq_apply,
              Parts.value_eq_apply]
          rw [hvalue] at h ⊢
          exact holds_normalize h _

theorem sub_eq_add_neg_unpacked (u w : UnpackedFloat) :
    u.sub .binary64 w = u.add .binary64 w.neg := by
  cases u with
  | finite s m e hm =>
      cases w with
      | finite s' m' e' hm' =>
          have hneg : ∀ n : Int, (-s').apply n = -s'.apply n := by
            cases s' <;> intro n <;> simp [Sign.apply]
          simp only [sub, UnpackedFloat.neg, UnpackedFloat.add, hneg, sub_eq_add_neg]
      | _ => rfl
  | _ => cases w <;> rfl

theorem holds_neg (hw : Holds w v') : Holds w.neg (-v') := by
  obtain ⟨p, hp, rfl⟩ := hw
  refine ⟨⟨!p.negative, p.mantissa, p.exponent⟩, ?_, ?_⟩
  · cases hp with
    | zero negative =>
        cases negative with
        | false => exact .zero true
        | true => exact .zero false
    | finite hp hmax hm =>
        convert Unpacked.finite (p := ⟨!p.negative, p.mantissa, p.exponent⟩)
          ⟨hp.min_le, hp.lt, hp.le⟩ hmax hm using 1
        refine finite_congr ?_ rfl rfl
        simp only [Parts.sign]
        cases p.negative <;> rfl
  · simp only [Parts.value, Parts.signed]
    cases p.negative <;> simp

theorem holds_sub (hu : Holds u v) (hw : Holds w v') (h : Representable (v - v')) :
    Holds (u.sub .binary64 w) (v - v') := by
  rw [sub_eq_add_neg_unpacked, sub_eq_add_neg]
  exact holds_add hu (holds_neg hw) (sub_eq_add_neg v v' ▸ h)

theorem apply_mul (s s' : Sign) (m n : Int) : (s * s').apply (m * n) = s.apply m * s'.apply n := by
  cases s <;> cases s'
  · exact (neg_mul_neg m n).symm
  · exact (neg_mul m n).symm
  · exact (mul_neg m n).symm
  · rfl

theorem value_mul (p q : Parts) : p.value * q.value =
    ((p.sign * q.sign).apply (p.mantissa * q.mantissa : Nat) : ℚ) * 2 ^
      (p.exponent + q.exponent) := by
  rw [Parts.value_eq_apply, Parts.value_eq_apply, Nat.cast_mul, apply_mul, zpow_add₀ two_ne_zero]
  push_cast
  ring

/-- The exact product of two numbers of the format has too long a mantissa, or a very
small exponent. -/
theorem le_targetExponent_mul {p q : Parts} (hp : p.IsNormal) (hq : q.IsNormal)
    (hm : 0 < p.mantissa) (hm' : 0 < q.mantissa) :
    p.exponent + q.exponent ≤ Format.binary64.targetExponent
      (totalExponent (p.mantissa * q.mantissa) (p.exponent + q.exponent)) := by
  have hproduct : (p.exponent = -1074 ∧ q.exponent = -1074) ∨
      52 ≤ (p.mantissa * q.mantissa).log2 := by
    rw [Nat.le_log2 (by positivity)]
    rcases hp.le with hple | hple
    · rcases hq.le with hqle | hqle
      · exact .inl ⟨hple, hqle⟩
      · exact .inr (hqle.trans (Nat.le_mul_of_pos_left _ hm))
    · exact .inr (hple.trans (Nat.le_mul_of_pos_right _ hm'))
  rw [targetExponent_eq, totalExponent]
  omega

theorem holds_mul (hu : Holds u v) (hw : Holds w v') (h : Representable (v * v')) :
    Holds (u.mul .binary64 w) (v * v') := by
  obtain ⟨p, hp, rfl⟩ := hu
  obtain ⟨q, hq, rfl⟩ := hw
  cases hp with
  | zero negative =>
      rw [Parts.value_zero, zero_mul]
      cases hq <;> exact holds_zero _
  | finite hp hmax hm =>
      cases hq with
      | zero negative' =>
          rw [Parts.value_zero, mul_zero]
          exact holds_zero _
      | finite hq hmax' hm' =>
          rw [value_mul] at h ⊢
          exact holds_roundWithAccuracy (Nat.mul_pos hm hm') h (le_targetExponent_mul hp hq hm hm')

theorem sign_mul_div (s s' : Sign) : s * s' / s' = s := by
  cases s <;> cases s' <;> rfl

theorem totalExponent_sub_le {m m' n : Nat} {e e' d : Int} (hm : 0 < m) (hm' : 0 < m') (hn : 0 < n)
    (h : (m : ℚ) * 2 ^ e = n * 2 ^ d * (m' * 2 ^ e')) :
    totalExponent m e - totalExponent m' e' ≤ totalExponent n d := by
  have hlow := (totalExponent_bounds hm e).1
  have hhigh := (totalExponent_bounds hn d).2
  have hhigh' := (totalExponent_bounds hm' e').2
  have hlt : (2 : ℚ) ^ (totalExponent m e - 1) < 2 ^ (totalExponent n d + totalExponent m' e') := by
    rw [zpow_add₀ two_ne_zero]
    calc (2 : ℚ) ^ (totalExponent m e - 1) ≤ n * 2 ^ d * (m' * 2 ^ e') := h ▸ hlow
      _ < 2 ^ totalExponent n d * 2 ^ totalExponent m' e' := by gcongr
  have := (zpow_lt_zpow_iff_right₀ (by norm_num : (1 : ℚ) < 2)).mp hlt
  omega

/-- Where a quotient is a number of the format, the division of the mantissas
leaves no remainder. -/
theorem divCore_of_value {p q r : Parts} (hm : 0 < p.mantissa) (hm' : 0 < q.mantissa)
    (hr : r.IsNormal) (hpos : 0 < r.mantissa)
    (h : (p.mantissa : ℚ) * 2 ^ p.exponent = r.mantissa * 2 ^ r.exponent *
      (q.mantissa * 2 ^ q.exponent)) :
    ∃ (k : Nat) (e : Int), divCore .binary64 p.mantissa p.exponent q.mantissa q.exponent =
      (r.mantissa * 2 ^ k, e, .exact) ∧ r.exponent = e + k := by
  set t := min (p.exponent - q.exponent) (Format.binary64.targetExponent
    (totalExponent p.mantissa p.exponent - totalExponent q.mantissa q.exponent)) with ht
  -- The division is carried on to an exponent that is small enough for the quotient.
  have hle : t ≤ r.exponent := by
    have htotal := totalExponent_sub_le hm hm' hpos h
    have hexp := targetExponent_of_isNormal hr hpos
    rw [targetExponent_eq] at ht hexp
    omega
  obtain ⟨k, hk⟩ := Int.le.dest hle
  have hshift : ((p.exponent - q.exponent - t).toNat : Int) = p.exponent - q.exponent - t := by
    omega
  have hproduct : p.mantissa <<< (p.exponent - q.exponent - t).toNat = q.mantissa *
      (r.mantissa * 2 ^ k) := by
    have hcast : ((p.mantissa <<< (p.exponent - q.exponent - t).toNat : Nat) : ℚ) =
        (q.mantissa * (r.mantissa * 2 ^ k) : Nat) := by
      rw [Nat.shiftLeft_eq]
      push_cast
      rw [← zpow_natCast (2 : ℚ) (Int.toNat _), hshift, ← zpow_natCast (2 : ℚ) k]
      have hk' : (k : Int) = r.exponent - t := by omega
      rw [hk', zpow_sub₀ two_ne_zero, zpow_sub₀ two_ne_zero, zpow_sub₀ two_ne_zero]
      field_simp
      linarith
    exact_mod_cast hcast
  refine ⟨k, t, ?_, hk.symm⟩
  rw [divCore]
  simp only [← ht, hproduct]
  rw [Nat.mul_div_cancel_left _ hm', Nat.mul_mod_right]
  rfl

theorem holds_div (hu : Holds u v) (hw : Holds w v') (hne : v' ≠ 0) (h : Representable (v / v')) :
    Holds (u.div .binary64 w) (v / v') := by
  obtain ⟨p, hp, rfl⟩ := hu
  obtain ⟨q, hq, rfl⟩ := hw
  cases hq with
  | zero negative' => exact (hne (Parts.value_zero _ _)).elim
  | finite hq hmax' hm' =>
      cases hp with
      | zero negative =>
          rw [Parts.value_zero, zero_div]
          exact holds_zero _
      | finite hp hmax hm =>
          obtain ⟨r, hr, hrmax, hvalue⟩ := representable_iff.mp h
          -- Sign and size of the quotient are read off from the product with the divisor.
          have hproduct : p.value = ((r.sign * q.sign).apply (r.mantissa * q.mantissa : Nat) : ℚ) *
              2 ^ (r.exponent + q.exponent) := by
            rw [← value_mul, hvalue, div_mul_cancel₀ _ hne]
          have hpos : 0 < r.mantissa := by
            refine Nat.pos_of_ne_zero fun hzero => ?_
            have hpne : p.value ≠ 0 := p.value_ne_zero hm
            cases hsign : r.sign * q.sign <;>
              simp [hsign, hzero, Sign.apply] at hproduct <;> contradiction
          obtain ⟨hsign, -, hsize⟩ := Parts.eq_of_value (Nat.mul_pos hpos hm') hproduct
          obtain ⟨k, e, hcore, he⟩ := divCore_of_value hm hm' hr hpos (by
            rw [← hsize, Nat.cast_mul, zpow_add₀ two_ne_zero]
            ring)
          refine ⟨r, ?_, hvalue⟩
          rw [UnpackedFloat.div, hcore, hsign, sign_mul_div]
          simp only
          rw [roundWithAccuracy_of_value hr hpos _ ?_ (by omega)]
          · exact .finite hr hrmax hpos
          · rw [he, Nat.cast_mul, Nat.cast_pow, Nat.cast_ofNat, mul_assoc, two_pow_mul_zpow]

end Operations

/-! ## Operations on floating-point numbers -/

theorem HasValue.holds {x : Float} {v : ℚ} (h : HasValue x v) : Holds x.toModel.unpack v := by
  obtain ⟨p, hview, hvalue⟩ := h
  exact ⟨p, unpacked_of_view hview, hvalue⟩

theorem Holds.hasValue {u : UnpackedFloat} {v : ℚ} (h : Holds u v) :
    HasValue (Float.ofModel (.pack u)) v := by
  obtain ⟨p, hp, hvalue⟩ := h
  exact ⟨p, hp.view_pack, hvalue⟩

section Values

variable {x y : Float} {v v' : ℚ} (hx : HasValue x v) (hy : HasValue y v')

include hx hy

theorem hasValue_add (h : Representable (v + v')) : HasValue (x + y) (v + v') :=
  (holds_add hx.holds hy.holds h).hasValue

theorem hasValue_sub (h : Representable (v - v')) : HasValue (x - y) (v - v') :=
  (holds_sub hx.holds hy.holds h).hasValue

theorem hasValue_mul (h : Representable (v * v')) : HasValue (x * y) (v * v') :=
  (holds_mul hx.holds hy.holds h).hasValue

theorem hasValue_div (hne : v' ≠ 0) (h : Representable (v / v')) : HasValue (x / y) (v / v') :=
  (holds_div hx.holds hy.holds hne h).hasValue

end Values

/-! ## Rounding a fraction -/

theorem Representable.abs {v : ℚ} (h : Representable v) : Representable |v| := by
  obtain ⟨p, hp, hmax, rfl⟩ := representable_iff.mp h
  refine representable_iff.mpr
    ⟨⟨false, p.mantissa, p.exponent⟩, ⟨hp.min_le, hp.lt, hp.le⟩, hmax, ?_⟩
  rw [p.abs_value, Parts.value, Parts.signed, if_neg Bool.false_ne_true, Int.cast_natCast]

theorem Representable.exists_parts_of_sign {v : ℚ} (h : Representable v) (hv : 0 ≤ v)
    (negative : Bool) :
    ∃ p : Parts, p.IsNormal ∧ p.exponent ≤ 971 ∧ p.negative = negative ∧
      (p.mantissa : ℚ) * 2 ^ p.exponent = v := by
  obtain ⟨p, hp, hmax, rfl⟩ := representable_iff.mp h
  refine ⟨⟨negative, p.mantissa, p.exponent⟩, ⟨hp.min_le, hp.lt, hp.le⟩, hmax, rfl, ?_⟩
  rw [← p.abs_value, abs_of_nonneg hv]

/-- The value is at least halfway from the largest number to the next power of two. -/
def TooLarge (v : ℚ) : Prop := (2 ^ 54 - 1) * 2 ^ 970 ≤ |v|

/-- Rounding the value changes nothing, or there is no number to round it to. -/
def ExactOrTooLarge (v : ℚ) : Prop := Representable v ∨ TooLarge v

theorem le_nearestNat_of_even {n : Nat} (hn : Even n) {r : ℚ} (h : 2 * (n : ℚ) ≤ 2 * r + 1) :
    n ≤ nearestNat r := by
  rcases Nat.lt_or_ge ⌊r⌋₊ n with hlt | hge
  · have hfloor : r < ⌊r⌋₊ + 1 := Nat.lt_floor_add_one r
    have hsucc : n = ⌊r⌋₊ + 1 := by
      have hlt' : (n : ℚ) < (⌊r⌋₊ + 2 : Nat) := by push_cast; linarith
      have : n < ⌊r⌋₊ + 2 := by exact_mod_cast hlt'
      omega
    have hodd : ⌊r⌋₊ % 2 = 1 := by
      rw [hsucc, Nat.even_add_one, Nat.not_even_iff] at hn
      exact hn
    have hhalf : 2 * r ≥ 2 * ⌊r⌋₊ + 1 := by
      rw [hsucc] at h
      push_cast at h
      linarith
    rw [nearestNat, if_pos (hhalf.lt_or_eq.imp id fun heq => ⟨heq.symm, hodd⟩)]
    exact hsucc.le
  · rw [nearestNat]
    split <;> omega

theorem two_pow_le_nearestNat {r : ℚ} (h : (2 ^ 54 - 1) * 2 ^ (970 : ℤ) ≤ r) :
    2 ^ 53 ≤ nearestNat (r / 2 ^ (971 : ℤ)) := by
  refine le_nearestNat_of_even (by decide) ?_
  have hscaled : ((2 : ℚ) ^ 54 - 1) / 2 ≤ r / 2 ^ (971 : ℤ) := by
    rw [le_div_iff₀ (by positivity), div_mul_eq_mul_div, div_le_iff₀ two_pos]
    refine le_trans (le_of_eq ?_) (mul_le_mul_of_nonneg_right h zero_le_two)
    rw [show (971 : ℤ) = 970 + (1 : Nat) by norm_num, ← two_pow_mul_zpow]
    ring
  generalize r / 2 ^ (971 : ℤ) = w at hscaled ⊢
  push_cast
  linarith

section Nearest

variable (negative : Bool) {num den : Nat} (hden : den ≠ 0)

include hden

theorem nearest?_of_representable (h : Representable ((num : ℚ) / den)) :
    ∃ x, nearest? negative num den = some x ∧
      HasValue x (if negative then -((num : ℚ) / den) else num / den) := by
  obtain ⟨p, hp, hmax, rfl, hsize⟩ := h.exists_parts_of_sign (by positivity) negative
  have hlt : p.magnitude < infiniteMagnitude := by
    obtain ⟨hmin, hlt, hle⟩ := hp
    rw [Parts.magnitude, infiniteMagnitude]
    omega
  have hmagnitude : nearestMagnitude num den = p.magnitude := by
    obtain ⟨hfraction, hvalue⟩ := p.fraction_eq
    rw [nearestMagnitude_congr hden hfraction (hsize.symm.trans hvalue.symm),
      Parts.nearestMagnitude_fraction hp, Nat.min_eq_left hlt.le]
  refine ⟨ofMagnitude p.negative p.magnitude, ?_, p, view_ofMagnitude hp hmax, ?_⟩
  · simp only [nearest?, hmagnitude]
    rw [if_pos hlt]
  · rw [Parts.value, Parts.signed, ← hsize]
    cases p.negative <;> simp

theorem nearest?_of_tooLarge (h : TooLarge ((num : ℚ) / den)) :
    nearest? negative num den = none := by
  rw [TooLarge, abs_of_nonneg (by positivity), ← zpow_ofNat (2 : ℚ) 970] at h
  have hmin : (2 : ℚ) ^ (1023 : ℤ) ≤ num / den := by
    refine le_trans ?_ h
    rw [show (1023 : ℤ) = 970 + (53 : Nat) by norm_num, ← two_pow_mul_zpow]
    gcongr
    norm_num
  have hnum : num ≠ 0 := by
    rintro rfl
    rw [Nat.cast_zero, zero_div] at hmin
    exact absurd hmin (not_le.mpr (by positivity))
  have hlast := isLastBit_lastBit hnum hden
  generalize lastBit num den = e at hlast
  have hexp : 971 ≤ e := by
    have hlt : (2 : ℚ) ^ (1023 : ℤ) < 2 ^ (e + (53 : Nat)) := by
      rw [← two_pow_mul_zpow]
      exact hmin.trans_lt hlast.lt
    have := (zpow_lt_zpow_iff_right₀ (by norm_num : (1 : ℚ) < 2)).mp hlt
    omega
  have hmagnitude : nearestMagnitude num den = infiniteMagnitude := by
    rw [nearestMagnitude_eq hnum hden hlast, infiniteMagnitude]
    refine min_eq_right ?_
    rcases hexp.eq_or_lt with heq | hlt
    · -- With the exponent of the largest numbers, the mantissa is rounded up to a power of two.
      have hhalf := heq ▸ two_pow_le_nearestNat h
      omega
    · -- With a larger exponent, any mantissa is too large.
      have hlarge : 2 ^ 52 ≤ nearestNat ((num : ℚ) / den / 2 ^ e) := by
        refine le_nearestNat_of_even (by decide) ?_
        have hscaled : (2 : ℚ) ^ 52 ≤ num / den / 2 ^ e := by
          rw [le_div_iff₀ (by positivity)]
          exact hlast.le.resolve_left (by omega)
        push_cast
        linarith
      omega
  simp only [nearest?, hmagnitude]
  rw [if_neg (lt_irrefl _)]

end Nearest

theorem abs_div_eq (a b : Int) : |(a : ℚ) / b| = (a.natAbs : ℚ) / b.natAbs := by
  rw [abs_div, Nat.cast_natAbs, Nat.cast_natAbs, Int.cast_abs, Int.cast_abs]

theorem signed_quotient (a b : Int) :
    (if decide (a < 0) != decide (b < 0) then -((a.natAbs : ℚ) / b.natAbs)
      else (a.natAbs : ℚ) / b.natAbs) = a / b := by
  rw [Nat.cast_natAbs, Nat.cast_natAbs, Int.cast_abs, Int.cast_abs]
  rcases lt_or_ge a 0 with ha | ha <;> rcases lt_or_ge b 0 with hb | hb
  · have ha' : (a : ℚ) < 0 := by exact_mod_cast ha
    have hb' : (b : ℚ) < 0 := by exact_mod_cast hb
    simp [ha, hb, abs_of_neg ha', abs_of_neg hb', neg_div_neg_eq]
  · have ha' : (a : ℚ) < 0 := by exact_mod_cast ha
    have hb' : (0 : ℚ) ≤ b := by exact_mod_cast hb
    simp [ha, not_lt.mpr hb, abs_of_neg ha', abs_of_nonneg hb', neg_div]
  · have ha' : (0 : ℚ) ≤ a := by exact_mod_cast ha
    have hb' : (b : ℚ) < 0 := by exact_mod_cast hb
    simp [not_lt.mpr ha, hb, abs_of_nonneg ha', abs_of_neg hb', div_neg]
  · have ha' : (0 : ℚ) ≤ a := by exact_mod_cast ha
    have hb' : (0 : ℚ) ≤ b := by exact_mod_cast hb
    simp [not_lt.mpr ha, not_lt.mpr hb, abs_of_nonneg ha', abs_of_nonneg hb']

/-- A quotient of integers that needs no rounding is exact, and one that is too
large has no number. -/
theorem ofQuotient?_cases {a b : Int} (hb : b ≠ 0) (h : ExactOrTooLarge ((a : ℚ) / b)) :
    ofQuotient? a b = none ∨ ∃ x, ofQuotient? a b = some x ∧ HasValue x ((a : ℚ) / b) := by
  have hden : b.natAbs ≠ 0 := Int.natAbs_ne_zero.mpr hb
  rcases h with h | h
  · right
    obtain ⟨x, hx, hvalue⟩ := nearest?_of_representable (decide (a < 0) != decide (b < 0)) hden
      (abs_div_eq a b ▸ h.abs)
    exact ⟨x, hx, signed_quotient a b ▸ hvalue⟩
  · left
    refine nearest?_of_tooLarge _ hden ?_
    rwa [TooLarge, ← abs_div_eq, abs_abs]

theorem ofInt?_cases {n : Int} (h : ExactOrTooLarge n) :
    ofInt? n = none ∨ ∃ x, ofInt? n = some x ∧ HasValue x n := by
  have hone : ofInt? n = ofQuotient? n 1 := by
    rw [ofInt?, ofQuotient?]
    simp
  have hvalue : (n : ℚ) = n / (1 : Int) := by rw [Int.cast_one, div_one]
  rw [hone, hvalue]
  exact ofQuotient?_cases one_ne_zero (hvalue ▸ h)

end Clausal.Decimal
