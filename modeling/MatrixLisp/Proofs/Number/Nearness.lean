import Mathlib
import MatrixLisp.Linear.Matrix

/-!
# Nearness of floats

Two floats are near each other if their difference is within the tolerance. A finite float differs
from itself by zero. Which of two floats is taken from which changes the sign of the difference at
most, since rounding does not look at signs.
-/
namespace MatrixLisp

namespace Nearness

open Float.Model (Format UnpackedFloat)
open Float.Model.UnpackedFloat (Sign packComponents)

variable (spec : Format)

theorem sub_self_of_isFinite {u : UnpackedFloat} (h : u.isFinite = true) :
    UnpackedFloat.sub spec u u = .zero .positive := by
  cases u with
  | notANumber => cases h
  | infinity s => cases h
  | zero s => cases s <;> rfl
  | finite s m e hm =>
    rw [UnpackedFloat.sub]
    dsimp only
    rw [Int.sub_self]
    rfl

theorem abs_round (s s' : Sign) (m : ℕ) (e : ℤ) :
    (UnpackedFloat.round spec s m e).abs = (UnpackedFloat.round spec s' m e).abs := by
  unfold UnpackedFloat.round UnpackedFloat.roundWithAccuracy
  dsimp only
  split <;> rfl

theorem abs_normalize_neg (m e : ℤ) (zero : Sign) :
    (UnpackedFloat.normalize spec (-m) e zero).abs = (UnpackedFloat.normalize spec m e zero).abs := by
  obtain h | h | h := lt_trichotomy m 0
  · have hneg : compare (-m) 0 = .gt := Int.compare_eq_gt.mpr (by omega)
    rw [UnpackedFloat.normalize, UnpackedFloat.normalize, hneg, Int.compare_eq_lt.mpr h]
    exact abs_round ..
  · rw [h, Int.neg_zero]
  · have hneg : compare (-m) 0 = .lt := Int.compare_eq_lt.mpr (by omega)
    rw [UnpackedFloat.normalize, UnpackedFloat.normalize, hneg, Int.compare_eq_gt.mpr h, Int.neg_neg]
    exact abs_round ..

/-- The two differences of two numbers have the same magnitude. -/
theorem abs_sub_comm (u v : UnpackedFloat) :
    (UnpackedFloat.sub spec u v).abs = (UnpackedFloat.sub spec v u).abs := by
  cases u with
  | notANumber => cases v <;> rfl
  | infinity s =>
    cases v with
    | infinity s' => cases s <;> cases s' <;> rfl
    | _ => rfl
  | zero s =>
    cases v with
    | zero s' => cases s <;> cases s' <;> rfl
    | _ => rfl
  | finite s m e hm =>
    cases v with
    | finite s' m' e' hm' =>
      rw [UnpackedFloat.sub, UnpackedFloat.sub, min_comm e' e]
      dsimp only
      rw [← Int.neg_sub]
      exact abs_normalize_neg ..
    | _ => rfl

/-- Patterns that differ in their signs encode numbers of the same magnitude. -/
theorem abs_unpack_packComponents (s s' : Sign) (exponent : BitVec spec.exponentBits)
    (mantissa : BitVec spec.mantissaBitsWithoutImplicit) :
    (UnpackedFloat.unpack spec (packComponents spec s exponent mantissa)).abs =
      (UnpackedFloat.unpack spec (packComponents spec s' exponent mantissa)).abs := by
  unfold UnpackedFloat.unpack
  simp only [UnpackedFloat.unpackMantissa_packComponents,
    UnpackedFloat.unpackExponent_packComponents]
  split_ifs <;> rfl

theorem abs_unpack_pack (u : UnpackedFloat) :
    (UnpackedFloat.unpack spec (UnpackedFloat.pack spec u)).abs =
      (UnpackedFloat.unpack spec (UnpackedFloat.pack spec u.abs)).abs := by
  cases u with
  | notANumber => rfl
  | infinity s => exact abs_unpack_packComponents ..
  | zero s => exact abs_unpack_packComponents ..
  | finite s m e hm =>
    unfold UnpackedFloat.pack UnpackedFloat.abs
    dsimp only
    split_ifs <;> exact abs_unpack_packComponents ..

theorem abs_unpack_pack_sub_comm (u v : UnpackedFloat) :
    (UnpackedFloat.unpack spec (UnpackedFloat.pack spec (UnpackedFloat.sub spec u v))).abs =
      (UnpackedFloat.unpack spec (UnpackedFloat.pack spec (UnpackedFloat.sub spec v u))).abs := by
  rw [abs_unpack_pack, abs_sub_comm, ← abs_unpack_pack]

end Nearness

open Nearness

/-- A finite float is near itself. -/
theorem nearlyEqual_self {x : Float} (h : x.isFinite = true) : nearlyEqual x x = true := by
  have hsub : x - x = .ofModel (.pack (.zero .positive)) :=
    congrArg (Float.ofModel ∘ Float.Model.pack) (sub_self_of_isFinite .binary64 h)
  rw [nearlyEqual, hsub]
  decide +kernel

theorem nearlyEqual_comm (x y : Float) : nearlyEqual x y = nearlyEqual y x := by
  have habs : (x - y).abs = (y - x).abs :=
    congrArg (Float.ofModel ∘ Float.Model.pack) (abs_unpack_pack_sub_comm .binary64 _ _)
  rw [nearlyEqual, nearlyEqual, habs]

theorem nearlyEqualFloats_comm (xs ys : Array Float) :
    nearlyEqualFloats xs ys = nearlyEqualFloats ys xs := by
  rw [nearlyEqualFloats, nearlyEqualFloats, List.zipWith_comm_of_comm nearlyEqual_comm, BEq.comm]

theorem NumVector.nearlyEqual_comm (v w : NumVector) : v.nearlyEqual w = w.nearlyEqual v :=
  nearlyEqualFloats_comm ..

theorem Matrix.nearlyEqual_comm (a b : Matrix) : a.nearlyEqual b = b.nearlyEqual a := by
  rw [Matrix.nearlyEqual, Matrix.nearlyEqual, nearlyEqualFloats_comm, BEq.comm]

namespace Number

theorem equal_comm (x y : Number) : x.equal y = y.equal x := by
  cases x <;> cases y <;> first | exact BEq.comm | exact MatrixLisp.nearlyEqual_comm ..

end Number

end MatrixLisp
