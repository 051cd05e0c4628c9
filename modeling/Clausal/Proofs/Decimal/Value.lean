import Clausal.Proofs.Decimal.Rounding

/-!
# The value of a floating-point number

A finite number has an exact value, which its pieces give. The pieces that its bits show are
those that the arithmetic of floating-point numbers works with when it unpacks a number and when
it packs a result.
-/

namespace Clausal.Decimal

open Float.Model (Format UnpackedFloat)
open Float.Model.UnpackedFloat

def Parts.sign (p : Parts) : Sign := if p.negative then .negative else .positive

def Parts.value (p : Parts) : ℚ := p.signed p.mantissa * 2 ^ p.exponent

def HasValue (x : Float) (v : ℚ) : Prop := ∃ p, view x = .finite p ∧ p.value = v

/-- Some floating-point number has the value. -/
def Representable (v : ℚ) : Prop := ∃ x, HasValue x v

/-! ## Values -/

theorem Parts.value_zero (negative : Bool) (e : Int) : Parts.value ⟨negative, 0, e⟩ = 0 := by
  cases negative <;> simp [Parts.value, Parts.signed]

theorem Parts.value_eq_apply (p : Parts) :
    p.value = (p.sign.apply p.mantissa : ℚ) * 2 ^ p.exponent := by
  rw [Parts.value, Parts.signed, Parts.sign]
  cases p.negative <;> rfl

theorem Parts.abs_value (p : Parts) : |p.value| = p.mantissa * 2 ^ p.exponent := by
  have hnonneg : (0 : ℚ) ≤ p.mantissa * 2 ^ p.exponent := by positivity
  rw [Parts.value, Parts.signed]
  split
  · rw [Int.cast_neg, Int.cast_natCast, neg_mul, abs_neg, abs_of_nonneg hnonneg]
  · rw [Int.cast_natCast, abs_of_nonneg hnonneg]

theorem Parts.value_ne_zero (p : Parts) (hm : 0 < p.mantissa) : p.value ≠ 0 := by
  have hsize : (p.mantissa : ℚ) * 2 ^ p.exponent ≠ 0 := by positivity
  rw [Parts.value, Parts.signed]
  split
  · rwa [Int.cast_neg, Int.cast_natCast, neg_mul, neg_ne_zero]
  · rwa [Int.cast_natCast]

/-- Sign and size of a value that is not zero. -/
theorem Parts.eq_of_value {p : Parts} {s : Sign} {m : Nat} {e : Int} (hm : 0 < m)
    (h : p.value = (s.apply m : ℚ) * 2 ^ e) :
    p.sign = s ∧ 0 < p.mantissa ∧ (m : ℚ) * 2 ^ e = p.mantissa * 2 ^ p.exponent := by
  have hpos : (0 : ℚ) < m * 2 ^ e := by positivity
  have hnonneg : (0 : ℚ) ≤ p.mantissa * 2 ^ p.exponent := by positivity
  have hmantissa : (0 : ℚ) < p.mantissa * 2 ^ p.exponent → 0 < p.mantissa := fun h0 => by
    by_contra hzero
    obtain hzero : p.mantissa = 0 := by omega
    simp [hzero] at h0
  rw [Parts.value, Parts.signed] at h
  rw [Parts.sign]
  cases s <;> cases hneg : p.negative <;>
    simp only [hneg, Sign.apply, Bool.false_eq_true, if_false, if_true, Int.cast_neg,
      Int.cast_natCast, neg_mul] at h ⊢
  · linarith
  · exact ⟨trivial, hmantissa (by linarith), by linarith⟩
  · exact ⟨trivial, hmantissa (by linarith), by linarith⟩
  · linarith

theorem Parts.value_eq_fraction (p : Parts) :
    p.value = (p.signed p.fraction.1 : ℚ) / p.fraction.2 := by
  have hsize := p.fraction_eq.2
  rw [Parts.value]
  unfold Parts.signed
  split
  · rw [Int.cast_neg, Int.cast_neg, Int.cast_natCast, Int.cast_natCast, neg_mul, neg_div, hsize]
  · rw [Int.cast_natCast, Int.cast_natCast, hsize]

theorem Parts.whole?_eq_some_iff {p : Parts} {n : Int} : p.whole? = some n ↔ p.value = n := by
  have hden : (p.fraction.2 : ℚ) ≠ 0 := by exact_mod_cast p.fraction_eq.1
  have hden' : (p.fraction.2 : Int) ≠ 0 := by exact_mod_cast p.fraction_eq.1
  have hvalue : p.value = n ↔ p.signed p.fraction.1 = n * p.fraction.2 := by
    rw [p.value_eq_fraction, div_eq_iff hden]
    exact_mod_cast Iff.rfl
  have hsigned : ∀ k : Nat, p.signed (p.fraction.2 * k) = p.signed k * p.fraction.2 := by
    intro k
    unfold Parts.signed
    split <;> push_cast <;> ring
  rw [hvalue, Parts.whole?, Parts.truncate]
  constructor
  · intro h
    split at h
    · next hmod =>
      rw [← Option.some.inj h, ← hsigned, Nat.mul_div_cancel' (Nat.dvd_of_mod_eq_zero hmod)]
    · cases h
  · intro h
    have hdvd : p.fraction.2 ∣ p.fraction.1 := by
      have hdvd' : (p.fraction.2 : Int) ∣ p.signed p.fraction.1 := ⟨n, by rw [h, mul_comm]⟩
      unfold Parts.signed at hdvd'
      split at hdvd'
      · exact_mod_cast (Int.dvd_neg.mp hdvd')
      · exact_mod_cast hdvd'
    rw [if_pos (Nat.mod_eq_zero_of_dvd hdvd)]
    obtain ⟨k, hk⟩ := hdvd
    rw [hk, hsigned] at h
    rw [hk, Nat.mul_div_cancel_left _ (Nat.pos_of_ne_zero p.fraction_eq.1),
      mul_right_cancel₀ hden' h]

theorem whole?_eq_some_iff {x : Float} {n : Int} : whole? x = some n ↔ HasValue x n := by
  rw [whole?, HasValue]
  cases hview : view x with
  | finite p => simp [Parts.whole?_eq_some_iff]
  | _ => simp

/-! ## Bits and pieces -/

/-- All bits of a number. -/
def Parts.bits (p : Parts) : Nat := p.negative.toNat * 2 ^ 63 + p.magnitude

theorem view_of_bits {x : Float} {p : Parts} (hp : p.IsNormal) (hmax : p.exponent ≤ 971)
    (h : x.toBits.toNat = p.bits) : view x = .finite p := by
  obtain ⟨negative, mantissa, exponent⟩ := p
  obtain ⟨hmin, hlt, hle⟩ := hp
  dsimp only [Parts.bits, Parts.magnitude] at hmin hlt hle hmax h
  have hsign : negative.toNat ≤ 1 := negative.toNat_le
  have hnegative : decide (2 ^ 63 ≤ x.toBits.toNat) = negative := by
    cases negative with
    | false => exact decide_eq_false (by rw [h, Bool.toNat_false]; omega)
    | true => exact decide_eq_true (by rw [h, Bool.toNat_true]; omega)
  simp only [view, hnegative]
  rw [if_neg (by omega)]
  split
  · next hbiased =>
    congr 2 <;> omega
  · next hbiased =>
    congr 2 <;> omega

/-- The number in pieces that an unpacked number stands for. -/
inductive Unpacked : UnpackedFloat → Parts → Prop
  | zero (negative : Bool) : Unpacked (.zero (Parts.sign ⟨negative, 0, -1074⟩)) ⟨negative, 0, -1074⟩
  | finite {p : Parts} (hp : p.IsNormal) (hmax : p.exponent ≤ 971) (hm : 0 < p.mantissa) :
      Unpacked (.finite p.sign p.mantissa p.exponent hm) p

theorem toNat_packComponents (s : Sign) (e : BitVec 11) (m : BitVec 52) :
    (packComponents .binary64 s e m).toNat = s.toBitVec.toNat * 2 ^ 63 + e.toNat * 2 ^
      52 + m.toNat := by
  have hm : m.toNat < 2 ^ 52 := m.isLt
  have he : e.toNat < 2 ^ 11 := e.isLt
  rw [packComponents, BitVec.toNat_append, BitVec.toNat_append, ← Nat.shiftLeft_add_eq_or_of_lt he,
    ← Nat.shiftLeft_add_eq_or_of_lt hm, Nat.shiftLeft_eq, Nat.shiftLeft_eq]
  omega

theorem toNat_sign (p : Parts) : p.sign.toBitVec.toNat = p.negative.toNat := by
  rw [Parts.sign]
  cases p.negative <;> rfl

theorem Unpacked.toNat_pack {u : UnpackedFloat} {p : Parts} (h : Unpacked u p) :
    (u.pack .binary64).toNat = p.bits := by
  cases h with
  | zero negative => cases negative <;> rfl
  | finite hp hmax hm =>
      obtain ⟨hmin, hlt, hle⟩ := hp
      have hbias : Format.binary64.exponentBias = 1023 := rfl
      simp only [pack, hbias]
      rw [if_neg (by omega)]
      split
      · next hnormal =>
        have hlog : p.mantissa.log2 = 52 := by
          have : p.mantissa.log2 + 1 = 53 := hnormal
          omega
        have hge : 2 ^ 52 ≤ p.mantissa := (Nat.le_log2 hm.ne').mp hlog.ge
        rw [toNat_packComponents, toNat_sign, BitVec.toNat_ofNat, BitVec.toNat_ofNat, Parts.bits,
          Parts.magnitude]
        omega
      · next hsubnormal =>
        have hlog : p.mantissa.log2 < 52 := by
          have : p.mantissa.log2 < 53 := (Nat.log2_lt hm.ne').mpr hlt
          have : p.mantissa.log2 + 1 ≠ 53 := hsubnormal
          omega
        have hlt' : p.mantissa < 2 ^ 52 := (Nat.log2_lt hm.ne').mp hlog
        rw [toNat_packComponents, toNat_sign, BitVec.toNat_ofNat, BitVec.toNat_ofNat, Parts.bits,
          Parts.magnitude]
        omega

/-- The pieces of an unpacked number are those that its bits show. -/
theorem Unpacked.view_pack {u : UnpackedFloat} {p : Parts} (h : Unpacked u p) :
    view (Float.ofModel (.pack u)) = .finite p := by
  have hbits : (Float.ofModel (.pack u)).toBits.toNat = p.bits := h.toNat_pack
  cases h with
  | zero negative => exact view_of_bits ⟨le_rfl, by norm_num, .inl rfl⟩ (by norm_num) hbits
  | finite hp hmax hm => exact view_of_bits hp hmax hbits

theorem finite_congr {s s' : Sign} {m m' : Nat} {e e' : Int} {hm : 0 < m}
    {hm' : 0 < m'} (hs : s = s') (hmm : m = m') (he : e = e') :
    UnpackedFloat.finite s m e hm = .finite s' m' e' hm' := by
  subst hs hmm he
  rfl

section Unpack

variable (b : BitVec Format.binary64.numBits)

theorem toNat_unpackExponent : (unpackExponent b).toNat = b.toNat / 2 ^ 52 % 2 ^ 11 := by
  simp [unpackExponent, Nat.shiftRight_eq_div_pow]

theorem toNat_unpackMantissa : (unpackMantissa b).toNat = b.toNat % 2 ^ 52 := by
  simp [unpackMantissa]

theorem toNat_unpackSign : (unpackSign b).toNat = b.toNat / 2 ^ 63 % 2 := by
  simp [unpackSign, Nat.shiftRight_eq_div_pow]

theorem toNat_implicit :
    (BitVec.ofNat 1 1 ++ unpackMantissa b).toNat = 2 ^ 52 + b.toNat % 2 ^ 52 := by
  rw [BitVec.toNat_append, ← Nat.shiftLeft_add_eq_or_of_lt (unpackMantissa b).isLt,
    toNat_unpackMantissa]
  rfl

end Unpack

theorem unpacked_of_bits {b : BitVec Format.binary64.numBits} {p : Parts} (hp : p.IsNormal)
    (hmax : p.exponent ≤ 971) (h : b.toNat = p.bits) : Unpacked (unpack .binary64 b) p := by
  have hnormal := hp
  obtain ⟨hmin, hlt, hle⟩ := hp
  have hbits : b.toNat = p.negative.toNat * 2 ^ 63 +
    ((p.exponent + 1074).toNat * 2 ^ 52 + p.mantissa) := h
  have hsignLe : p.negative.toNat ≤ 1 := p.negative.toNat_le
  have hbias : Format.binary64.exponentBias = 1023 := rfl
  have hexponent := toNat_unpackExponent b
  have hmantissa := toNat_unpackMantissa b
  have hsign : Sign.ofBitVec (unpackSign b) = p.sign := by
    have hbit : unpackSign b = p.sign.toBitVec := by
      apply BitVec.eq_of_toNat_eq
      rw [toNat_unpackSign, toNat_sign]
      omega
    rw [hbit, Parts.sign]
    cases p.negative <;> rfl
  have hfinite : unpackExponent b ≠ -BitVec.ofNat _ 1 := by
    intro hones
    have : (unpackExponent b).toNat = 2047 := by rw [hones]; rfl
    omega
  have hzero : unpackExponent b = BitVec.ofNat _ 0 ↔ (unpackExponent b).toNat = 0 := by
    rw [← BitVec.toNat_inj]
    rfl
  have hempty : unpackMantissa b = BitVec.ofNat _ 0 ↔ (unpackMantissa b).toNat = 0 := by
    rw [← BitVec.toNat_inj]
    rfl
  simp only [unpack, if_neg hfinite, hsign, hbias]
  -- The smallest exponent has zero and the numbers without the implicit bit.
  split
  · next hsmall =>
    have hexp : p.exponent = -1074 ∧ p.mantissa < 2 ^ 52 := by rw [hzero] at hsmall; omega
    split
    · next hnone =>
      have hm : p.mantissa = 0 := by rw [hempty] at hnone; omega
      obtain ⟨negative, mantissa, exponent⟩ := p
      obtain ⟨rfl, rfl⟩ : exponent = -1074 ∧ mantissa = 0 := ⟨hexp.1, hm⟩
      exact .zero negative
    · next hsome =>
      have hm : 0 < p.mantissa := by rw [hempty] at hsome; omega
      convert Unpacked.finite hnormal hmax hm using 1
      exact finite_congr rfl (by omega) (by omega)
  · next hlarge =>
    have hm : 0 < p.mantissa := by rw [hzero] at hlarge; omega
    convert Unpacked.finite hnormal hmax hm using 1
    rw [hzero] at hlarge
    exact finite_congr rfl (by rw [toNat_implicit]; omega) (by omega)

theorem exponent_le_of_view {x : Float} {p : Parts} (h : view x = .finite p) :
    p.exponent ≤ 971 := by
  obtain ⟨⟨hmin, -, hle⟩, hlt, -⟩ := isNormal_of_view h
  rw [Parts.magnitude, infiniteMagnitude] at hlt
  omega

theorem unpacked_of_view {x : Float} {p : Parts} (h : view x = .finite p) :
    Unpacked x.toModel.unpack p := by
  obtain ⟨hnormal, -, hbits⟩ := isNormal_of_view h
  refine unpacked_of_bits hnormal (exponent_le_of_view h) (hbits.trans ?_)
  rw [Parts.bits]
  cases p.negative <;> simp

theorem view_ofMagnitude {p : Parts} (hp : p.IsNormal) (hmax : p.exponent ≤ 971) :
    view (ofMagnitude p.negative p.magnitude) = .finite p := by
  have hlt : p.magnitude < 2 ^ 63 := by
    obtain ⟨hmin, hlt, hle⟩ := hp
    rw [Parts.magnitude]
    omega
  have hbits :
      (UInt64.ofNat (if p.negative then 2 ^ 63 + p.magnitude else p.magnitude)).toBitVec.toNat =
      p.bits := by
    rw [UInt64.toNat_toBitVec, Parts.bits]
    cases p.negative <;> simp <;> omega
  exact (unpacked_of_bits hp hmax hbits).view_pack

theorem representable_iff {v : ℚ} :
    Representable v ↔ ∃ p : Parts, p.IsNormal ∧ p.exponent ≤ 971 ∧ p.value = v := by
  constructor
  · rintro ⟨x, p, hview, hvalue⟩
    exact ⟨p, (isNormal_of_view hview).1, exponent_le_of_view hview, hvalue⟩
  · rintro ⟨p, hp, hmax, hvalue⟩
    exact ⟨_, p, view_ofMagnitude hp hmax, hvalue⟩

end Clausal.Decimal
