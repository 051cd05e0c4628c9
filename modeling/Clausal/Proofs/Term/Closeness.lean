import Clausal.Proofs.Term.Leaves
import Mathlib

/-!
# Closeness is symmetric

Subtracting two numbers the other way round changes the sign of the difference and nothing else:
rounding looks at the size of an exact difference only, and so does packing the result into bits.
This holds for infinities too, and a difference that is not a number is not one either way.
-/

namespace Clausal.Term

open Float.Model (Format UnpackedFloat)
open Float.Model.UnpackedFloat

variable {spec : Format}

theorem abs_round (s s' : Sign) (m : Nat) (e : Int) :
    (UnpackedFloat.round spec s m e).abs = (UnpackedFloat.round spec s' m e).abs := by
  simp only [UnpackedFloat.round, roundWithAccuracy]
  split <;> rfl

theorem abs_normalize_neg (m e : Int) (s : Sign) :
    (UnpackedFloat.normalize spec (-m) e s).abs = (UnpackedFloat.normalize spec m e s).abs := by
  rcases Int.lt_trichotomy m 0 with hm | rfl | hm
  · have hneg : compare (-m) 0 = .gt := Int.compare_eq_gt.mpr (by omega)
    rw [UnpackedFloat.normalize, UnpackedFloat.normalize, hneg, Int.compare_eq_lt.mpr hm]
    exact abs_round _ _ _ _
  · rfl
  · have hneg : compare (-m) 0 = .lt := Int.compare_eq_lt.mpr (by omega)
    rw [UnpackedFloat.normalize, UnpackedFloat.normalize, hneg,
      Int.compare_eq_gt.mpr hm, Int.neg_neg]
    exact abs_round _ _ _ _

theorem abs_sub_comm_unpacked (u v : UnpackedFloat) : (u.sub spec v).abs = (v.sub spec u).abs := by
  cases u with
  | notANumber => cases v <;> rfl
  | infinity s =>
      cases v with
      | infinity s' => cases s <;> cases s' <;> rfl
      | _ => rfl
  | zero s =>
      cases v with
      | zero s' => cases s <;> cases s' <;> rfl
      | _ => rfl
  | finite s m e hm =>
      cases v with
      | finite s' m' e' hm' =>
          simp only [sub]
          rw [Int.min_comm, ← abs_normalize_neg, Int.neg_sub]
      | _ => rfl

/-- The absolute value of a packed number does not read its sign bit. -/
theorem abs_unpack_packComponents (s s' : Sign) (e : BitVec spec.exponentBits)
    (m : BitVec spec.mantissaBitsWithoutImplicit) :
    (unpack spec (packComponents spec s e m)).abs =
      (unpack spec (packComponents spec s' e m)).abs := by
  simp only [unpack, unpackMantissa_packComponents, unpackExponent_packComponents]
  split_ifs <;> rfl

theorem abs_unpack_pack (u : UnpackedFloat) :
    (unpack spec (u.pack spec)).abs = (unpack spec (u.abs.pack spec)).abs := by
  cases u with
  | notANumber => rfl
  | infinity s | zero s => exact abs_unpack_packComponents _ _ _ _
  | finite s m e hm =>
      simp only [UnpackedFloat.abs, pack]
      split_ifs <;> exact abs_unpack_packComponents _ _ _ _

theorem abs_sub_comm_float (x y : Float) : (x - y).abs = (y - x).abs := by
  let u := x.toModel.unpack
  let v := y.toModel.unpack
  let abs := fun w : UnpackedFloat => (unpack .binary64 (w.pack .binary64)).abs
  have hcomm : abs (u.sub .binary64 v) = abs (v.sub .binary64 u) :=
    calc abs (u.sub .binary64 v)
      _ = abs (u.sub .binary64 v).abs := abs_unpack_pack _
      _ = abs (v.sub .binary64 u).abs := by rw [abs_sub_comm_unpacked]
      _ = abs (v.sub .binary64 u) := (abs_unpack_pack _).symm
  exact congrArg (fun w => Float.ofModel (.pack w)) hcomm

theorem closeFloats_comm (x y : Float) : closeFloats x y = closeFloats y x := by
  rw [closeFloats, closeFloats, abs_sub_comm_float]

theorem closeAll_comm_of_forall {ss : List Term} (h : ∀ s ∈ ss, ∀ t, s.close t = t.close s)
    (ts : List Term) : closeAll ss ts = closeAll ts ss := by
  induction ss generalizing ts with
  | nil => cases ts <;> rfl
  | cons s ss ih =>
      cases ts with
      | nil => rfl
      | cons t ts =>
          rw [closeAll, closeAll, h s List.mem_cons_self t,
            ih (fun s' hs' => h s' (List.mem_cons_of_mem s hs')) ts]

theorem close_comm (s t : Term) : s.close t = t.close s := by
  induction s generalizing t with
  | float x =>
      cases t with
      | float y => exact closeFloats_comm x y
      | _ => rfl
  | compound f ss ih =>
      cases t with
      | compound g ts => rw [close, close, closeAll_comm_of_forall ih, BEq.comm]
      | _ => rfl
  | var _ | atom _ | int _ | str _ => cases t <;> simp [close, BEq.comm]

end Clausal.Term
