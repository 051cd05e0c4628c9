import Clausal.Decimal.Layout
import Clausal.Proofs.Decimal.Numerals
import Clausal.Proofs.Decimal.Rounding

/-!
# Decimal text reads back

The decimal that is written for a finite number has the value of a numeral that rounds to the number
again. Where digits, point and exponent stand in the text changes nothing about the value.
-/

namespace Clausal.Decimal

open Text (isDigit digitsValue)

/-! ## Decimals -/

namespace Scientific

def value (s : Scientific) : ℚ := s.coefficient * 10 ^ s.exponent

theorem fraction_eq (s : Scientific) :
    s.fraction.2 ≠ 0 ∧ (s.fraction.1 : ℚ) / s.fraction.2 = s.value := by
  obtain ⟨coefficient, exponent⟩ := s
  cases exponent with
  | ofNat k => exact ⟨by simp [fraction], by simp [fraction, value]⟩
  | negSucc k => exact ⟨by simp [fraction], by simp [fraction, value, zpow_negSucc, div_eq_mul_inv]⟩

theorem nearestMagnitude_congr {s s' : Scientific} (h : s.value = s'.value) :
    nearestMagnitude s.fraction.1 s.fraction.2 = nearestMagnitude s'.fraction.1 s'.fraction.2 :=
  Decimal.nearestMagnitude_congr s.fraction_eq.1 s'.fraction_eq.1
    (s.fraction_eq.2.trans (h.trans s'.fraction_eq.2.symm))

theorem nearestMagnitude_of_zero {s : Scientific} (hs : s.coefficient = 0) :
    nearestMagnitude s.fraction.1 s.fraction.2 = 0 := by
  obtain ⟨hden, hvalue⟩ := s.fraction_eq
  have hquot : (s.fraction.1 : ℚ) / s.fraction.2 = 0 := by simp [hvalue, value, hs]
  have hnum : s.fraction.1 = 0 := by simpa [hden] using hquot
  rw [nearestMagnitude, if_pos hnum]

end Scientific

theorem lt_pow_digitCount (n : Nat) : n < 10 ^ digitCount n :=
  (Nat.length_toDigits_le_iff (by decide) Nat.length_toDigits_pos).mp (Nat.le_refl _)

theorem pow_digitCount_le {n : Nat} (hn : n ≠ 0) : 10 ^ (digitCount n - 1) ≤ n := by
  by_contra! hlt
  have hpos : 0 < digitCount n - 1 := by
    by_contra! h0
    rw [Nat.le_zero.mp h0] at hlt
    omega
  have hle : digitCount n ≤ digitCount n - 1 :=
    (Nat.length_toDigits_le_iff (by decide) hpos).mpr hlt
  omega

theorem ten_pow_bounds : (2 : ℚ) ^ (1100 : ℤ) ≤ 10 ^ (400 : ℤ) ∧
    (10 : ℚ) ^ (-400 : ℤ) ≤ 2 ^ (-1100 : ℤ) := by
  have hle : (2 : ℚ) ^ (1100 : ℤ) ≤ 10 ^ (400 : ℤ) := by
    calc (2 : ℚ) ^ (1100 : ℤ) = (2 ^ 11) ^ 100 := by rw [← pow_mul]; exact zpow_natCast 2 1100
      _ ≤ (10 ^ 4) ^ 100 := pow_le_pow_left₀ (by norm_num) (by norm_num) 100
      _ = 10 ^ (400 : ℤ) := by rw [← pow_mul]; exact (zpow_natCast 10 400).symm
  refine ⟨hle, ?_⟩
  rw [zpow_neg, zpow_neg]
  exact inv_anti₀ (by positivity) hle

namespace Scientific

variable (s : Scientific)

theorem zpow_le_value (hs : s.coefficient ≠ 0) :
    (10 : ℚ) ^ (s.exponent + digitCount s.coefficient - 1) ≤ s.value := by
  have hpos : 0 < digitCount s.coefficient := Nat.length_toDigits_pos
  have hle : (10 : ℚ) ^ (digitCount s.coefficient - 1) ≤ s.coefficient := by
    exact_mod_cast pow_digitCount_le hs
  calc (10 : ℚ) ^ (s.exponent + digitCount s.coefficient - 1)
      = 10 ^ (digitCount s.coefficient - 1) * 10 ^ s.exponent := by
        rw [← zpow_natCast, ← zpow_add₀ (by norm_num)]
        congr 1
        omega
    _ ≤ s.value := by rw [value]; gcongr

theorem value_lt_zpow : s.value < 10 ^ (s.exponent + digitCount s.coefficient) := by
  have hlt : (s.coefficient : ℚ) < 10 ^ digitCount s.coefficient := by
    exact_mod_cast lt_pow_digitCount s.coefficient
  calc s.value < 10 ^ digitCount s.coefficient * 10 ^ s.exponent := by rw [value]; gcongr
    _ = 10 ^ (s.exponent + digitCount s.coefficient) := by
      rw [← zpow_natCast, ← zpow_add₀ (by norm_num), add_comm]

/-- Settling decimals by their leading exponent agrees with rounding them. -/
theorem toFloat_eq (negative : Bool) :
    s.toFloat negative = nearest negative s.fraction.1 s.fraction.2 := by
  obtain ⟨hden, hvalue⟩ := s.fraction_eq
  rw [toFloat, nearest]
  split
  · next hzero =>
    rw [nearestMagnitude_of_zero hzero]
  · next hcoefficient =>
    dsimp only
    split
    · next hlarge =>
      have hle : (2 : ℚ) ^ (1100 : ℤ) ≤ s.fraction.1 / s.fraction.2 := by
        rw [hvalue]
        exact ten_pow_bounds.1.trans ((zpow_le_zpow_right₀ (by norm_num) (by omega)).trans
          (s.zpow_le_value hcoefficient))
      rw [nearestMagnitude_of_le hden hle, infinity]
    · split
      · next hsmall =>
        have hlt : (s.fraction.1 : ℚ) / s.fraction.2 < 2 ^ (-1100 : ℤ) := by
          rw [hvalue]
          exact s.value_lt_zpow.trans_le ((zpow_le_zpow_right₀ (by norm_num) (by omega)).trans
            ten_pow_bounds.2)
        rw [nearestMagnitude_of_lt hden hlt]
      · rfl

end Scientific

/-! ## The shortest decimal -/

/-- A fraction in units small enough is an exact decimal. -/
theorem Scientific.value_of_dvd (num : Nat) {den k : Nat} (hden0 : den ≠ 0) (hden : den ∣ 10 ^ k) :
    value ⟨num * 10 ^ k / den, -(k : ℤ)⟩ = num / den := by
  have hcast : (den : ℚ) ≠ 0 := by exact_mod_cast hden0
  rw [value]
  dsimp only
  rw [Nat.cast_div (Dvd.dvd.mul_left hden num) hcast, zpow_neg, zpow_natCast]
  push_cast
  field_simp

theorem readsAs_shortest_or (num den : Nat) :
    (shortest num den).readsAs (nearestMagnitude num den) = true ∨
      shortest num den = inPlaces num den := by
  rw [shortest]
  cases h : (grids num den).findSome? (reading? num den (nearestMagnitude num den)) with
  | none => exact .inr rfl
  | some s =>
      obtain ⟨k, _, hfind⟩ := List.exists_of_findSome?_eq_some h
      have hreads := List.find?_some hfind
      exact .inl hreads

/-- The decimal that is chosen rounds to the number it stands for. -/
theorem nearestMagnitude_shortest (num : Nat) {j : Nat} (hj : j ≤ exactPlaces) :
    nearestMagnitude (shortest num (2 ^ j)).fraction.1 (shortest num (2 ^ j)).fraction.2 =
      nearestMagnitude num (2 ^ j) := by
  rcases readsAs_shortest_or num (2 ^ j) with hreads | hexact
  · exact beq_iff_eq.mp hreads
  · have hden0 : 2 ^ j ≠ 0 := by positivity
    have hdvd : 2 ^ j ∣ 10 ^ exactPlaces :=
      (pow_dvd_pow 2 hj).trans (pow_dvd_pow_of_dvd (by norm_num) exactPlaces)
    obtain ⟨hden, hfraction⟩ := (shortest num (2 ^ j)).fraction_eq
    refine nearestMagnitude_congr hden hden0 (hfraction.trans ?_)
    rw [hexact]
    exact Scientific.value_of_dvd num hden0 hdvd

/-! ## Digits, point and exponent -/

/-- The value of the numeral that is spelled. -/
def Spelling.value (w : Spelling) : ℚ := (Numeral.ofChars w.chars).scientific.value

theorem Spelling.value_eq (w : Spelling) :
    w.value = digitsValue (w.whole ++ w.fraction) * 10 ^ (w.exponentValue - w.fraction.length) := by
  rw [value, ofChars_chars]
  rfl

/-- The spelling is that of a number with the given digits, the first of them of exponent `e`. It
could not be taken for that of an integer. -/
structure Spelling.Places (w : Spelling) (ds : List Char) (e : Int) : Prop where
  all_isDigit : w.chars.all isDigit = false
  value_eq : w.value = digitsValue ds * 10 ^ (e + 1 - ds.length)

theorem isDigit_of_mem_zeros {k : Nat} {c : Char} (h : c ∈ List.replicate k '0') :
    isDigit c = true := by
  rw [List.eq_of_mem_replicate h]
  decide

/-- Zeros may fill the places in front of the digits and after them. -/
theorem Spelling.Places.of_zeros {w : Spelling} {ds : List Char} {e : Int} (j k : Nat)
    (hdigits : w.whole ++ w.fraction = List.replicate j '0' ++ (ds ++ List.replicate k '0'))
    (hplace : k + w.exponentValue - w.fraction.length = e + 1 - ds.length)
    (hmark : w.fraction ≠ [] ∨ w.exponent ≠ none) : w.Places ds e := by
  constructor
  · rw [w.all_isDigit_chars]
    rcases hmark with h | h <;> simp [h, Option.ne_none_iff_isSome.mp]
  · have hvalue : digitsValue (w.whole ++ w.fraction) = digitsValue ds * 10 ^ k := by
      rw [hdigits, Text.digitsValue_append, Text.digitsValue_zeros, Text.digitsValue_append,
        Text.digitsValue_zeros, List.length_replicate, Nat.zero_mul, Nat.zero_add, Nat.add_zero]
    calc w.value = digitsValue ds *
      (10 ^ (k : ℤ) * 10 ^ (w.exponentValue - w.fraction.length)) := by
          rw [w.value_eq, hvalue, Nat.cast_mul, mul_assoc, zpow_natCast, Nat.cast_pow,
            Nat.cast_ofNat]
      _ = digitsValue ds * 10 ^ (e + 1 - ds.length) := by
          rw [← zpow_add₀ (by norm_num), ← hplace, add_sub_assoc]

section Layout

variable {ds : List Char} (hne : ds ≠ []) (hds : ∀ c ∈ ds, isDigit c = true)
include hne hds

theorem exists_spelling_of_nonneg (e : Nat) :
    ∃ w : Spelling, w.chars = positional ds e ∧ w.Places ds e := by
  have hwhole : ∀ c ∈ ds.take (e + 1) ++ List.replicate (e + 1 - ds.length) '0', isDigit c = true :=
    fun c hc => (List.mem_append.mp hc).elim (fun h => hds c (List.mem_of_mem_take h))
      isDigit_of_mem_zeros
  have hwhole_ne : ds.take (e + 1) ++ List.replicate (e + 1 - ds.length) '0' ≠ [] := by simp [hne]
  -- The point stands among the digits, or after zeros that fill the places up to it.
  by_cases hlength : ds.length ≤ e + 1
  · let w : Spelling := ⟨_, ['0'], none, hwhole_ne, hwhole, by simp; decide, by simp⟩
    have hdigits : w.whole ++ w.fraction =
        List.replicate 0 '0' ++ (ds ++ List.replicate (e + 1 - ds.length + 1) '0') := by
      simp [w, hlength, List.replicate_succ']
    refine ⟨w, ?_, .of_zeros 0 (e + 1 - ds.length + 1) hdigits ?_ (.inl (by simp [w]))⟩
    · simp [w, Spelling.chars, Spelling.fractionChars, Spelling.exponentChars, positional, hlength]
    · simp only [w, Spelling.exponentValue, List.length_singleton]
      omega
  · have hrest : ds.drop (e + 1) ≠ [] := by simpa using hlength
    let w : Spelling := ⟨_, ds.drop (e + 1), none, hwhole_ne, hwhole,
      fun c hc => hds c (List.mem_of_mem_drop hc), by simp⟩
    have hzeros : e + 1 - ds.length = 0 := by omega
    have hdigits : w.whole ++ w.fraction = List.replicate 0 '0' ++
        (ds ++ List.replicate 0 '0') := by
      simp [w, hzeros]
    refine ⟨w, ?_, .of_zeros 0 0 hdigits ?_ (.inl hrest)⟩
    · simp [w, Spelling.chars, Spelling.fractionChars, Spelling.exponentChars, positional, hrest]
    · simp only [w, Spelling.exponentValue, List.length_drop]
      omega

theorem exists_spelling_of_neg (k : Nat) :
    ∃ w : Spelling, w.chars = positional ds (.negSucc k) ∧ w.Places ds (.negSucc k) := by
  have hfraction : ∀ c ∈ List.replicate k '0' ++ ds, isDigit c = true :=
    fun c hc => (List.mem_append.mp hc).elim isDigit_of_mem_zeros (hds c)
  let w : Spelling := ⟨['0'], List.replicate k '0' ++ ds, none, by simp, by simp; decide, hfraction,
    by simp⟩
  have hdigits : w.whole ++ w.fraction = List.replicate (k + 1) '0' ++
      (ds ++ List.replicate 0 '0') := by
    simp [w, List.replicate_succ]
  refine ⟨w, ?_, .of_zeros (k + 1) 0 hdigits ?_ (.inl (by simp [w, hne]))⟩
  · simp [w, Spelling.chars, Spelling.fractionChars, Spelling.exponentChars, positional, hne]
  · simp only [w, Spelling.exponentValue, List.length_append, List.length_replicate]
    omega

theorem exists_spelling_positional (e : Int) :
    ∃ w : Spelling, w.chars = positional ds e ∧ w.Places ds e := by
  cases e with
  | ofNat k => exact exists_spelling_of_nonneg hne hds k
  | negSucc k => exact exists_spelling_of_neg hne hds k

theorem exists_spelling_withExponent (l : Layout) (e : Int) :
    ∃ w : Spelling, w.chars = l.withExponent ds e ∧ w.Places ds e := by
  let padding := List.replicate (l.exponentWidth - (Nat.toDigits 10 e.natAbs).length) '0'
  have hexponent : ∀ c ∈ padding ++ Nat.toDigits 10 e.natAbs, isDigit c = true :=
    fun c hc => (List.mem_append.mp hc).elim isDigit_of_mem_zeros Text.isDigit_of_mem_toDigits
  have hvalue : digitsValue (padding ++ Nat.toDigits 10 e.natAbs) = e.natAbs := by
    rw [Text.digitsValue_append, Text.digitsValue_zeros, Text.digitsValue_toDigits]
    simp
  obtain ⟨d, ds, rfl⟩ := List.exists_cons_of_ne_nil hne
  let w : Spelling := ⟨[d], ds, some (decide (e < 0), padding ++ Nat.toDigits 10 e.natAbs), by simp,
    by simpa using hds d (by simp), fun c hc => hds c (by simp [hc]), by simpa using hexponent⟩
  have hplace : w.exponentValue = e := by
    have hsign : w.exponentValue = if e < 0 then -(e.natAbs : Int) else e.natAbs := by
      simp [w, Spelling.exponentValue, hvalue]
    rw [hsign]
    split <;> omega
  refine ⟨w, ?_, .of_zeros 0 0 (by simp [w]) ?_ (.inr (by simp [w]))⟩
  · cases ds with
    | nil => simp [w, Spelling.chars, Spelling.fractionChars, Spelling.exponentChars,
        Layout.withExponent, Layout.exponentText, padding]
    | cons d' ds => simp [w, Spelling.chars, Spelling.fractionChars, Spelling.exponentChars,
        Layout.withExponent, Layout.exponentText, padding]
  · rw [hplace]
    simp only [w, List.length_cons]
    omega

end Layout

/-- Only zeros are left out. -/
theorem toDigits_eq_significantDigits (n : Nat) :
    ∃ k, Nat.toDigits 10 n = significantDigits n ++ List.replicate k '0' := by
  let zeros := (Nat.toDigits 10 n).reverse.takeWhile (· == '0')
  refine ⟨zeros.length, ?_⟩
  have hzeros : zeros = List.replicate zeros.length '0' :=
    List.eq_replicate_of_mem fun c hc => by
      have hzero := List.mem_takeWhile_imp hc
      exact beq_iff_eq.mp hzero
  have hsplit : zeros ++ (Nat.toDigits 10 n).reverse.dropWhile (· == '0') =
      (Nat.toDigits 10 n).reverse := List.takeWhile_append_dropWhile
  have hreverse := congrArg List.reverse hsplit
  rw [List.reverse_append, List.reverse_reverse, hzeros, List.reverse_replicate] at hreverse
  exact hreverse.symm

/-- A positive decimal is written by a spelling of its value. -/
theorem exists_spelling_write (l : Layout) {s : Scientific} (hs : s.coefficient ≠ 0) :
    ∃ w : Spelling, w.chars = l.write s ∧ w.chars.all isDigit = false ∧ w.value = s.value := by
  obtain ⟨k, hk⟩ := toDigits_eq_significantDigits s.coefficient
  let ds := significantDigits s.coefficient
  let e := s.exponent + (digitCount s.coefficient : Int) - 1
  have hvalue : s.coefficient = digitsValue ds * 10 ^ k := by
    have hdigits := Text.digitsValue_toDigits s.coefficient
    rw [hk, Text.digitsValue_append, Text.digitsValue_zeros, List.length_replicate] at hdigits
    exact hdigits.symm
  have hne : ds ≠ [] := by
    intro hnil
    rw [hnil] at hvalue
    exact hs (hvalue.trans (Nat.zero_mul _))
  have hds : ∀ c ∈ ds, isDigit c = true := fun c hc =>
    Text.isDigit_of_mem_toDigits (hk ▸ List.mem_append_left _ hc)
  have hplaces : (digitsValue ds : ℚ) * 10 ^ (e + 1 - ds.length) = s.value := by
    have hlength : digitCount s.coefficient = ds.length + k := by
      rw [digitCount, hk, List.length_append, List.length_replicate]
    have he : e + 1 - ds.length = k + s.exponent := by omega
    rw [he, zpow_add₀ (by norm_num), ← mul_assoc, zpow_natCast, Scientific.value, hvalue]
    push_cast
    rfl
  have hwrite : ∃ w : Spelling, w.chars = l.write s ∧ w.Places ds e := by
    rw [Layout.write]
    split
    · exact exists_spelling_positional hne hds e
    · exact exists_spelling_withExponent hne hds l e
  obtain ⟨w, hchars, hw⟩ := hwrite
  exact ⟨w, hchars, hw.all_isDigit, hw.value_eq.trans hplaces⟩

/-! ## Finite numbers -/

theorem Spelling.toFloat_eq (w : Spelling) (negative : Bool) {s : Scientific}
    (h : w.value = s.value) :
    (Numeral.ofChars w.chars).toFloat negative =
      ofMagnitude negative (nearestMagnitude s.fraction.1 s.fraction.2) := by
  rw [Numeral.toFloat, Scientific.toFloat_eq, nearest, Scientific.nearestMagnitude_congr h]

/-- The denominator of a finite number is a power of two that is small enough. -/
theorem Parts.IsNormal.fraction_eq {p : Parts} (hp : p.IsNormal) :
    ∃ j ≤ exactPlaces, p.fraction.2 = 2 ^ j := by
  have hmin := hp.min_le
  have hplaces : 1074 ≤ exactPlaces := by unfold exactPlaces; omega
  rw [fraction]
  split
  · exact ⟨0, Nat.zero_le _, rfl⟩
  · next k hk => exact ⟨k + 1, by omega, rfl⟩

/-- The text of a finite number spells a numeral whose value is the number. -/
theorem exists_spelling_floatText {x : Float} (hfinite : x.isFinite = true) :
    ∃ (negative : Bool) (w : Spelling), floatText x = String.ofList (withSign negative w.chars) ∧
      w.chars.all isDigit = false ∧ (Numeral.ofChars w.chars).toFloat negative = x := by
  obtain ⟨p, h⟩ := exists_view_of_isFinite hfinite
  obtain ⟨hnormal, -, -⟩ := isNormal_of_view h
  obtain ⟨hmagnitude, hx⟩ := nearestMagnitude_of_view h
  refine ⟨p.negative, ?_⟩
  rw [floatText, h]
  dsimp only
  rw [Parts.text]
  by_cases hzero : p.mantissa = 0
  · let w : Spelling := ⟨['0'], ['0'], none, by simp, by simp; decide, by simp; decide, by simp⟩
    have hvalue : w.value = Scientific.value ⟨0, 0⟩ := by
      have hdigits : digitsValue (w.whole ++ w.fraction) = 0 := Text.digitsValue_zeros 2
      simp [w.value_eq, hdigits, Scientific.value]
    have hp : p.magnitude = 0 := by
      have hexponent : p.exponent = -1074 := hnormal.le.resolve_right (by omega)
      simp [Parts.magnitude, hzero, hexponent]
    refine ⟨w, by rw [if_pos hzero]; rfl, w.all_isDigit_chars, ?_⟩
    rw [w.toFloat_eq p.negative hvalue, Scientific.nearestMagnitude_of_zero rfl, ← hp, hx]
  · obtain ⟨j, hj, hden⟩ := hnormal.fraction_eq
    let s := shortest p.fraction.1 p.fraction.2
    have hs : nearestMagnitude s.fraction.1 s.fraction.2 = p.magnitude := by
      rw [← hmagnitude]
      simp only [s, hden]
      exact nearestMagnitude_shortest p.fraction.1 hj
    have hcoefficient : s.coefficient ≠ 0 := by
      intro h0
      rw [Scientific.nearestMagnitude_of_zero h0, Parts.magnitude] at hs
      omega
    obtain ⟨w, hchars, hdigits, hvalue⟩ := exists_spelling_write Layout.terms hcoefficient
    refine ⟨w, ?_, hdigits, ?_⟩
    · rw [if_neg hzero, hchars]
    · rw [w.toFloat_eq p.negative hvalue, hs, hx]

end Clausal.Decimal
