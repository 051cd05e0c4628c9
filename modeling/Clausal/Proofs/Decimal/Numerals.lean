import Clausal.Decimal.Reading
import Clausal.Grammar.Token
import Mathlib.Data.List.Basic
import Mathlib.Tactic.Common
import Mathlib.Tactic.Ring

/-!
# The text of numerals

A numeral is spelled by whole digits, and then perhaps a point with more digits and an exponent.
Reading takes the spelling apart again, and the tokenizer takes all of it, as long as what follows
could not belong to it.
-/

namespace Clausal

namespace Text

/-- A run of characters ends where the first other one follows. -/
theorem takeWhile_append_stop {p : Char → Bool} {cs rest : List Char} (hcs : ∀ c ∈ cs, p c = true)
    (hrest : ∀ c ∈ rest.head?, p c = false) : (cs ++ rest).takeWhile p = cs := by
  rw [List.takeWhile_append_of_pos hcs]
  cases rest with
  | nil => simp
  | cons c rest => simp [hrest c rfl]

/-- The digits of the Latin script stand for themselves. -/
theorem isDigit_of_latin {c : Char} (h : c.isDigit = true) :
    isDigit c = true ∧ digitValue? c = some (c.toNat - '0'.toNat) := by
  have hc : 48 ≤ c.toNat ∧ c.toNat ≤ 57 := by
    simpa [Char.isDigit, UInt32.le_iff_toNat_le] using h
  have hfirst : ¬ c.toNat < 0x30 := by omega
  have hholds : Run.holds ⟨0x30, 0x39, 1⟩ c.toNat = true := by
    simp [Run.holds, hc, Nat.mod_one]
  constructor
  · rw [isDigit, digitRuns, inRuns, if_neg hfirst, hholds, Bool.true_or]
  · rw [digitValue?, digitRuns, findRun?, if_neg hfirst, if_pos hholds, Option.map_some]
    exact congrArg some (Nat.mod_eq_of_lt (show c.toNat - 48 < 10 by omega))

theorem foldl_digits (n : Nat) (ds : List Char) :
    ds.foldl (fun n c => 10 * n + (digitValue? c).getD 0) n = n * 10 ^ ds.length +
      digitsValue ds := by
  induction ds generalizing n with
  | nil => simp [digitsValue]
  | cons c ds ih =>
      have hcons : digitsValue (c :: ds) = (digitValue? c).getD 0 * 10 ^ ds.length +
          digitsValue ds := by
        rw [digitsValue, List.foldl_cons, ih]
        simp
      rw [List.foldl_cons, ih, hcons, List.length_cons]
      ring

theorem digitsValue_append (cs ds : List Char) :
    digitsValue (cs ++ ds) = digitsValue cs * 10 ^ ds.length + digitsValue ds := by
  rw [digitsValue, List.foldl_append, foldl_digits]
  rfl

theorem digitsValue_zeros (k : Nat) : digitsValue (List.replicate k '0') = 0 := by
  induction k with
  | zero => rfl
  | succ k ih =>
      have hzero : digitsValue ['0'] = 0 := by decide
      rw [List.replicate_succ', digitsValue_append, ih, hzero, Nat.zero_mul]

theorem isDigit_of_mem_toDigits {n : Nat} {c : Char} (h : c ∈ Nat.toDigits 10 n) :
    isDigit c = true :=
  (isDigit_of_latin (Nat.isDigit_of_mem_toDigits (by decide) (by decide) h)).1

theorem digitsValue_toDigits (n : Nat) : digitsValue (Nat.toDigits 10 n) = n := by
  have hlatin : ∀ (ds : List Char), (∀ c ∈ ds, c.isDigit = true) →
      digitsValue ds = Nat.ofDigitChars 10 ds 0 := by
    intro ds hds
    refine List.foldl_ext _ _ 0 fun n c hc => ?_
    rw [(isDigit_of_latin (hds c hc)).2, Option.getD_some]
  rw [hlatin _ fun c hc => Nat.isDigit_of_mem_toDigits (by decide) (by decide) hc]
  exact Nat.ofDigitChars_ten_toDigits

end Text

namespace Decimal

open Text (isDigit digitsValue)

/-- No digits follow. -/
def NoDigits (rest : List Char) : Prop := ∀ c ∈ rest.head?, isDigit c = false

theorem takeDigits_append {ds rest : List Char} (hds : ∀ c ∈ ds, isDigit c = true)
    (hrest : NoDigits rest) : takeDigits (ds ++ rest) = (ds, rest) := by
  rw [takeDigits, Text.takeWhile_append_stop hds hrest, List.dropWhile_append_of_pos hds]
  cases rest with
  | nil => simp
  | cons c rest => simp [hrest c rfl]

/-- The pieces of the text of a numeral. Without a fraction there is no point. -/
structure Spelling where
  whole : List Char
  fraction : List Char
  exponent : Option (Bool × List Char)
  whole_ne : whole ≠ []
  isDigit_whole : ∀ c ∈ whole, isDigit c = true
  isDigit_fraction : ∀ c ∈ fraction, isDigit c = true
  isDigit_exponent : ∀ x ∈ exponent, x.2 ≠ [] ∧ ∀ c ∈ x.2, isDigit c = true

namespace Spelling

def fractionChars (w : Spelling) : List Char :=
  if w.fraction = [] then [] else '.' :: w.fraction

def exponentChars (w : Spelling) : List Char :=
  match w.exponent with
  | none => []
  | some (negative, ds) => 'e' :: (if negative then '-' else '+') :: ds

def chars (w : Spelling) : List Char := w.whole ++ (w.fractionChars ++ w.exponentChars)

def exponentValue (w : Spelling) : Int :=
  match w.exponent with
  | none => 0
  | some (negative, ds) => if negative then -(digitsValue ds : Int) else digitsValue ds

variable (w : Spelling)

theorem exists_head : ∃ c cs, w.chars = c :: cs ∧ isDigit c = true := by
  obtain ⟨c, cs, hwhole⟩ := List.exists_cons_of_ne_nil w.whole_ne
  exact ⟨c, _, by rw [chars, hwhole, List.cons_append], w.isDigit_whole c (by simp [hwhole])⟩

theorem noDigits_exponentChars {rest : List Char} (hrest : NoDigits rest) :
    NoDigits (w.exponentChars ++ rest) := by
  rw [exponentChars]
  split
  · exact hrest
  · exact fun c hc => Option.some.inj hc ▸ by decide

theorem noDigits_fractionChars {rest : List Char} (hrest : NoDigits rest) :
    NoDigits (w.fractionChars ++ (w.exponentChars ++ rest)) := by
  rw [fractionChars]
  split
  · exact w.noDigits_exponentChars hrest
  · exact fun c hc => Option.some.inj hc ▸ by decide

theorem readExponent_exponentChars : readExponent w.exponentChars = w.exponentValue := by
  rw [exponentChars, exponentValue]
  split
  · rfl
  · next negative ds h =>
    have hds := w.isDigit_exponent (negative, ds) h
    have hend : takeDigits (ds ++ []) = (ds, []) := takeDigits_append hds.2 (by simp [NoDigits])
    have htake : takeDigits ds = (ds, []) := by simpa using hend
    cases negative <;> simp [readExponent, takeSign, htake]

theorem ofChars_chars : Numeral.ofChars w.chars = ⟨w.whole, w.fraction, w.exponentValue⟩ := by
  have hnil : NoDigits [] := by simp [NoDigits]
  have hwhole : takeDigits w.chars = (w.whole, w.fractionChars ++ w.exponentChars) := by
    simpa [chars] using takeDigits_append w.isDigit_whole (w.noDigits_fractionChars hnil)
  have hfraction : takeDigits (w.fraction ++ w.exponentChars) = (w.fraction, w.exponentChars) := by
    simpa using takeDigits_append w.isDigit_fraction (w.noDigits_exponentChars hnil)
  rw [Numeral.ofChars, hwhole]
  by_cases hempty : w.fraction = []
  · have hnone : w.fractionChars = [] := if_pos hempty
    have hexponent := w.readExponent_exponentChars
    rw [exponentChars] at hexponent
    rw [hnone, List.nil_append, exponentChars, hempty]
    split at hexponent
    · rw [← hexponent]
    · rw [← hexponent]
      rfl
  · have hpoint : w.fractionChars = '.' :: w.fraction := if_neg hempty
    simp only [hpoint, List.cons_append, hfraction, readExponent_exponentChars]

/-- The text is all digits only if there is nothing else in it. -/
theorem all_isDigit_chars :
    w.chars.all isDigit = (w.fraction.isEmpty && w.exponent.isNone) := by
  have hwhole : w.whole.all isDigit = true := List.all_eq_true.mpr w.isDigit_whole
  have hfraction : w.fractionChars.all isDigit = w.fraction.isEmpty := by
    by_cases hempty : w.fraction = []
    · rw [fractionChars, if_pos hempty, hempty]
      rfl
    · rw [fractionChars, if_neg hempty, List.isEmpty_eq_false_iff.mpr hempty, List.all_cons]
      rfl
  have hexponent : w.exponentChars.all isDigit = w.exponent.isNone := by
    rw [exponentChars]
    split
    · next h => rw [h]; rfl
    · next h => rw [h]; rfl
  rw [chars, List.all_append, List.all_append, hwhole, hfraction, hexponent, Bool.true_and]

section Lexing

variable {rest : List Char} (hrest : NoDigits rest) (hother : ∀ c ∈ rest.head?, c ∉ ['.', 'e', 'E'])
include hrest hother

theorem exponentPart_append : Grammar.exponentPart (w.exponentChars ++ rest) = w.exponentChars := by
  rw [exponentChars]
  split
  · cases rest with
    | nil => rfl
    | cons c rest =>
        have hc := hother c rfl
        simp only [List.mem_cons, List.not_mem_nil, not_or] at hc
        rw [List.nil_append, Grammar.exponentPart.eq_def]
        split <;> simp_all
  · next negative ds h =>
    obtain ⟨hne, hds⟩ := w.isDigit_exponent (negative, ds) h
    have htake : (ds ++ rest).takeWhile isDigit = ds := Text.takeWhile_append_stop hds hrest
    cases negative <;> simp [Grammar.exponentPart, Grammar.signedDigits, htake]

theorem fractionPart_append :
    Grammar.fractionPart (w.fractionChars ++ (w.exponentChars ++ rest)) = w.fractionChars := by
  by_cases hempty : w.fraction = []
  · rw [fractionChars, if_pos hempty, List.nil_append, exponentChars]
    split
    · cases rest with
      | nil => rfl
      | cons c rest =>
          have hc := hother c rfl
          simp only [List.mem_cons, List.not_mem_nil, not_or] at hc
          rw [List.nil_append, Grammar.fractionPart.eq_def]
          split <;> simp_all
    · rfl
  · have htake := Text.takeWhile_append_stop w.isDigit_fraction (w.noDigits_exponentChars hrest)
    rw [fractionChars, if_neg hempty, List.cons_append, Grammar.fractionPart, htake]
    split
    · next h => exact (hempty h).elim
    · rfl

theorem number?_append : Grammar.number? (w.chars ++ rest) = some w.chars := by
  have htake : (w.chars ++ rest).takeWhile isDigit = w.whole := by
    simpa [chars] using Text.takeWhile_append_stop w.isDigit_whole (w.noDigits_fractionChars hrest)
  rw [Grammar.number?, htake]
  split
  · next h => exact (w.whole_ne h).elim
  · simp only [w.fractionPart_append hrest hother, List.drop_left,
      w.exponentPart_append hrest hother, chars, List.append_assoc]

end Lexing

end Spelling

end Decimal

end Clausal
