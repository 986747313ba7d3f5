import MatrixLisp.Proofs.Number.Nearness
import MatrixLisp.Proofs.Number.Packing

/-!
# Whole numbers as floats

A 64-bit integer is taken as a finite float. Multiplying or dividing a finite float by one gives it
back: the product or quotient has the mantissa of the float with zero bits appended, and rounding
takes these away. So a fraction with the denominator one is taken as the float of its numerator.
-/
namespace MatrixLisp

namespace Packing

open Float.Model (Format UnpackedFloat totalExponent)
open Float.Model.UnpackedFloat

/-- The parts of the float one. -/
def one : UnpackedFloat := .finite .positive (2 ^ 52) (-52) (by decide)

theorem zero_or_finite_of_isFinite {u : UnpackedFloat} (h : u.isFinite = true) :
    (∃ s, u = .zero s) ∨ ∃ s m e hm, u = .finite s m e hm := by
  cases u with
  | zero s => exact Or.inl ⟨s, rfl⟩
  | finite s m e hm => exact Or.inr ⟨s, m, e, hm, rfl⟩
  | _ => cases h

theorem mul_one_unpack {x : Float.Model} (h : x.unpack.isFinite = true) :
    UnpackedFloat.mul .binary64 x.unpack one = x.unpack := by
  obtain ⟨s, hx⟩ | ⟨s, m, e, hm, hx⟩ := zero_or_finite_of_isFinite h
  · rw [hx]
    cases s <;> rfl
  · have hsign : s * Sign.positive = s := by cases s <;> rfl
    simp only [hx, UnpackedFloat.mul, one, hsign]
    exact roundWithAccuracy_exact hm (canonical_unpack hx) s 52

theorem divCore_one {m : ℕ} {e : ℤ} (h : Canonical m e) :
    ∃ k : ℕ, divCore .binary64 m e (2 ^ 52) (-52) = (m * 2 ^ k, e - k, .exact) := by
  have htarget : Format.binary64.targetExponent
      (totalExponent m e - totalExponent (2 ^ 52) (-52)) = max (e - 1) (-1074) := by
    rw [canonical_iff] at h
    rw [targetExponent_eq, show totalExponent (2 ^ 52) (-52) = 1 from rfl, totalExponent]
    omega
  -- The quotient keeps one more bit than the mantissa, unless its exponent is the least one.
  refine ⟨(e - max (e - 1) (-1074)).toNat, ?_⟩
  rw [canonical_iff] at h
  have hshift : (e - -52 - min (e - -52) (max (e - 1) (-1074))).toNat =
      (e - max (e - 1) (-1074)).toNat + 52 := by omega
  have hexponent : min (e - -52) (max (e - 1) (-1074)) =
      e - (e - max (e - 1) (-1074)).toNat := by omega
  unfold divCore
  rw [htarget]
  dsimp only
  rw [hshift, Nat.shiftLeft_eq, pow_add, ← mul_assoc, Nat.mul_div_cancel _ (by decide),
    Nat.mul_mod_left, hexponent]
  rfl

theorem div_one_unpack {x : Float.Model} (h : x.unpack.isFinite = true) :
    UnpackedFloat.div .binary64 x.unpack one = x.unpack := by
  obtain ⟨s, hx⟩ | ⟨s, m, e, hm, hx⟩ := zero_or_finite_of_isFinite h
  · rw [hx]
    cases s <;> rfl
  · have hsign : s / Sign.positive = s := by cases s <;> rfl
    have hcanonical := canonical_unpack hx
    obtain ⟨k, hquotient⟩ := divCore_one hcanonical
    simp only [hx, UnpackedFloat.div, one, hquotient, hsign]
    exact roundWithAccuracy_exact hm hcanonical s k

theorem mul_one_of_isFinite {x : Float} (h : x.isFinite = true) :
    x * Float.ofBits 0x3FF0000000000000 = x :=
  calc
    x * Float.ofBits 0x3FF0000000000000 =
        .ofModel (.pack (UnpackedFloat.mul .binary64 x.toModel.unpack one)) := rfl
    _ = .ofModel (.pack x.toModel.unpack) := by rw [mul_one_unpack h]
    _ = x := x.ofBits_toBits

theorem div_one_of_isFinite {x : Float} (h : x.isFinite = true) : x / Float.ofInt 1 = x :=
  calc
    x / Float.ofInt 1 = .ofModel (.pack (UnpackedFloat.div .binary64 x.toModel.unpack one)) := rfl
    _ = .ofModel (.pack x.toModel.unpack) := by rw [div_one_unpack h]
    _ = x := x.ofBits_toBits

theorem isFinite_toFloat (n : UInt64) : n.toFloat.isFinite = true := by
  have hlog : n.toNat.log2 < 64 := log2_lt_of_lt (by decide) n.toNat_lt
  show (UnpackedFloat.unpack .binary64 (UnpackedFloat.pack .binary64
    (UnpackedFloat.normalize .binary64 (n.toNat : ℤ) 0 .positive))).isFinite = true
  unfold UnpackedFloat.normalize
  split
  · rename_i hneg
    rw [Int.compare_eq_lt] at hneg
    omega
  · rfl
  · rename_i hpos
    rw [Int.compare_eq_gt] at hpos
    have htarget : -53 ≤ Format.binary64.targetExponent (totalExponent n.toNat 0) := by
      rw [targetExponent_eq, totalExponent]
      omega
    unfold UnpackedFloat.round decreaseExponent
    dsimp only
    rw [Int.toNat_natCast]
    apply isFinite_unpack_pack_round
    · rw [Nat.shiftLeft_eq, log2_mul_two_pow (by omega)]
      omega
    · omega

theorem ofNat_of_lt {n : ℕ} (h : n < 2 ^ 53) :
    Float.ofNat n = n.toUInt64.toFloat * Float.ofBits 0x3FF0000000000000 :=
  dif_pos ⟨h, by decide⟩

theorem ofNat_of_le {n : ℕ} (h : 2 ^ 53 ≤ n) : Float.ofNat n = .ofModel (.ofScientific n 0) :=
  dif_neg fun hlt => by omega

theorem ofScientific_eq {n : ℕ} (h : 0 < n) :
    UnpackedFloat.ofScientific .binary64 n 0 =
      roundWithAccuracy .binary64 .positive (n * 2 ^ 53) (-53) .exact := by
  have hsafe : ¬ (0 : ℤ) < -(2 ^ Format.binary64.exponentBits + n.log2) := by
    show ¬ (0 : ℤ) < -(2 ^ 11 + n.log2)
    omega
  have hmantissa : n <<< Format.binary64.mantissaBits * 10 ^ Int.toNat 0 = n * 2 ^ 53 := by
    rw [Nat.shiftLeft_eq]
    exact Nat.mul_one _
  rw [UnpackedFloat.ofScientific, dif_neg h.ne', if_neg (by decide), if_neg hsafe, if_pos le_rfl]
  simp only [UnpackedFloat.mul, hmantissa]
  rfl

theorem isFinite_ofNat {n : ℕ} (h : n < 2 ^ 64) : (Float.ofNat n).isFinite = true := by
  obtain hlt | hle := Nat.lt_or_ge n (2 ^ 53)
  · rw [ofNat_of_lt hlt, mul_one_of_isFinite (isFinite_toFloat _)]
    exact isFinite_toFloat _
  · have hlog : n.log2 < 64 := log2_lt_of_lt (by decide) h
    rw [ofNat_of_le hle]
    show (UnpackedFloat.unpack .binary64 (UnpackedFloat.pack .binary64
      (UnpackedFloat.ofScientific .binary64 n 0))).isFinite = true
    rw [ofScientific_eq (by omega)]
    apply isFinite_unpack_pack_round
    · rw [log2_mul_two_pow (by omega)]
      omega
    · decide

theorem isFinite_abs (u : UnpackedFloat) : u.abs.isFinite = u.isFinite := by cases u <;> rfl

theorem isFinite_neg {x : Float} (h : x.isFinite = true) : (-x).isFinite = true := by
  have hpack : UnpackedFloat.pack .binary64 x.toModel.unpack = x.toModel.toBits.toBitVec :=
    pack_unpack_of_valid x.toModel.valid
  have habs : x.toModel.unpack.neg.abs = x.toModel.unpack.abs := by
    cases x.toModel.unpack <;> rfl
  show (UnpackedFloat.unpack .binary64
    (UnpackedFloat.pack .binary64 x.toModel.unpack.neg)).isFinite = true
  rw [← isFinite_abs, Nearness.abs_unpack_pack, habs, ← Nearness.abs_unpack_pack, isFinite_abs,
    hpack]
  exact h

theorem isFinite_ofInt {n : ℤ} (h : n.natAbs < 2 ^ 64) : (Float.ofInt n).isFinite = true := by
  cases n with
  | ofNat n => exact isFinite_ofNat h
  | negSucc n => exact isFinite_neg (isFinite_ofNat h)

end Packing

theorem isFinite_ofInt_toInt (n : Int64) : (Float.ofInt n.toInt).isFinite = true := by
  have hle := n.le_toInt
  have hlt := n.toInt_lt
  exact Packing.isFinite_ofInt (by omega)

namespace Rational

theorem toFloat_ofInt64 (n : Int64) : (ofInt64 n).toFloat = Float.ofInt n.toInt :=
  Packing.div_one_of_isFinite (isFinite_ofInt_toInt n)

end Rational

end MatrixLisp
