import Mathlib

/-!
# Packed floats

A 64-bit pattern holds a sign, an exponent and a mantissa. Unpacking a finite pattern gives a
mantissa with the exponent that the format chooses for it. Rounding leaves such a number as it is,
however many zero bits are appended to the mantissa, and it does not carry a number of moderate size
to infinity.
-/
namespace MatrixLisp

namespace Packing

open Float.Model (Format UnpackedFloat totalExponent)
open Float.Model.UnpackedFloat

/-! ## Patterns -/

/-- The mantissa of a normal number with its leading bit. -/
theorem toNat_leading_append (mantissa : BitVec 52) :
    (1#1 ++ mantissa).toNat = 2 ^ 52 + mantissa.toNat := by
  rw [BitVec.toNat_append, ← Nat.shiftLeft_add_eq_or_of_lt mantissa.isLt]
  rfl

theorem log2_leading_append (mantissa : BitVec 52) : (1#1 ++ mantissa).toNat.log2 = 52 := by
  have hlt := mantissa.isLt
  rw [toNat_leading_append, Nat.log2_eq_iff (by omega)]
  omega

/-- The pattern of a number whose exponent is not too large. -/
theorem pack_finite (s : Sign) {m : ℕ} {e : ℤ} (hm : 0 < m) (he : e ≤ 971) :
    UnpackedFloat.pack .binary64 (.finite s m e hm) =
      packComponents .binary64 s (if m.log2 = 52 then BitVec.ofNat _ (e + 1075).toNat else 0#_)
        (BitVec.ofNat _ m) := by
  have hbiased : e + (Format.binary64.exponentBias : ℤ) + (52 : ℕ) = e + 1075 := by
    rw [show (Format.binary64.exponentBias : ℤ) = 1023 from rfl]
    omega
  have hfits : ¬ 2 ^ Format.binary64.exponentBits ≤ (e + 1075).toNat + 1 := by
    rw [show 2 ^ Format.binary64.exponentBits = 2048 from rfl]
    omega
  rw [UnpackedFloat.pack]
  dsimp only
  rw [hbiased, if_neg hfits]
  by_cases hlog : m.log2 = 52
  · rw [if_pos hlog]
    exact if_pos (congrArg (· + 1) hlog)
  · rw [if_neg hlog]
    exact if_neg fun h => hlog (Nat.succ_inj.mp h)

/-! ## Exponents -/

/-- The exponent is the one that the format chooses for a mantissa. -/
def Canonical (m : ℕ) (e : ℤ) : Prop := e = Format.binary64.targetExponent (totalExponent m e)

theorem targetExponent_eq (n : ℤ) : Format.binary64.targetExponent n = max (n - 53) (-1074) := rfl

theorem canonical_iff {m : ℕ} {e : ℤ} :
    Canonical m e ↔ m.log2 = 52 ∧ -1074 ≤ e ∨ m.log2 < 52 ∧ e = -1074 := by
  rw [Canonical, targetExponent_eq, totalExponent]
  omega

theorem canonical_unpack {b : BitVec Format.binary64.numBits} {s : Sign} {m : ℕ} {e : ℤ}
    {hm : 0 < m} (h : UnpackedFloat.unpack .binary64 b = .finite s m e hm) : Canonical m e := by
  have hbias : (Format.binary64.exponentBias : ℤ) = 1023 := rfl
  rw [canonical_iff]
  unfold UnpackedFloat.unpack at h
  dsimp only at h
  rw [hbias] at h
  split_ifs at h with hones hmantissa hzeros hmantissa
  · cases h
    refine Or.inr ⟨(Nat.log2_lt hm.ne').mpr (unpackMantissa b).isLt, ?_⟩
    rw [hzeros]
    rfl
  · cases h
    have hpos : (unpackExponent b).toNat ≠ 0 := fun he => hzeros (BitVec.eq_of_toNat_eq he)
    refine Or.inl ⟨log2_leading_append _, ?_⟩
    omega

/-! ## Rounding -/

theorem log2_mul_two_pow {m : ℕ} (hm : 0 < m) (k : ℕ) : (m * 2 ^ k).log2 = m.log2 + k := by
  induction k with
  | zero => rw [pow_zero, mul_one, Nat.add_zero]
  | succ k ih =>
    rw [pow_succ, ← mul_assoc, mul_comm _ 2, Nat.log2_two_mul (by positivity), ih, Nat.add_assoc]

/-- Appended zero bits are shifted out without a trace. -/
theorem shiftRight_mul_two_pow (m k : ℕ) :
    (⟨m * 2 ^ k, false, false⟩ : ExtendedMantissa) >>> k = ⟨m, false, false⟩ := by
  show k.repeat ExtendedMantissa.shiftRightOne _ = _
  induction k generalizing m with
  | zero => rw [pow_zero, mul_one, Nat.repeat]
  | succ k ih =>
    rw [Nat.repeat, pow_succ', ← mul_assoc, ih, ExtendedMantissa.shiftRightOne]
    simp

theorem shiftToTargetExponent_exact {m : ℕ} {e : ℤ} (hm : 0 < m) (h : Canonical m e) (k : ℕ) :
    shiftToTargetExponent .binary64 (m * 2 ^ k) (e - k) .exact = (⟨m, false, false⟩, e) := by
  have htotal : totalExponent (m * 2 ^ k) (e - k) = totalExponent m e := by
    rw [totalExponent, totalExponent, log2_mul_two_pow hm]
    omega
  have hshift : (e - (e - (k : ℤ))).toNat = k := by omega
  unfold shiftToTargetExponent
  rw [htotal]
  dsimp only
  rw [← h, shiftToExponent, hshift, ExtendedMantissa.ofMantissaAndAccuracy, shiftRight_mul_two_pow,
    Int.sub_add_cancel]

/-- Rounding gives a number back that needs no rounding, whatever zero bits are appended to it. -/
theorem roundWithAccuracy_exact {m : ℕ} {e : ℤ} (hm : 0 < m) (h : Canonical m e) (s : Sign)
    (k : ℕ) : roundWithAccuracy .binary64 s (m * 2 ^ k) (e - k) .exact = .finite s m e hm := by
  have hagain : shiftToTargetExponent .binary64 m e .exact = (⟨m, false, false⟩, e) := by
    simpa using shiftToTargetExponent_exact hm h 0
  rw [roundWithAccuracy, shiftToTargetExponent_exact hm h k]
  dsimp only
  rw [show ExtendedMantissa.roundedMantissa ⟨m, false, false⟩ = m from rfl, hagain]
  exact dif_neg hm.ne'

theorem mantissa_shiftRight_le (em : ExtendedMantissa) (k : ℕ) :
    (em >>> k).mantissa ≤ em.mantissa := by
  show (k.repeat ExtendedMantissa.shiftRightOne em).mantissa ≤ em.mantissa
  induction k with
  | zero => exact le_rfl
  | succ k ih => exact (Nat.div_le_self ..).trans ih

theorem mantissa_shiftToTargetExponent_le (m : ℕ) (e : ℤ) (accuracy : Accuracy) :
    (shiftToTargetExponent .binary64 m e accuracy).1.mantissa ≤ m := by
  apply (mantissa_shiftRight_le ..).trans
  unfold ExtendedMantissa.ofMantissaAndAccuracy
  split <;> exact le_rfl

theorem exponent_shiftToTargetExponent (m : ℕ) (e : ℤ) (accuracy : Accuracy) :
    (shiftToTargetExponent .binary64 m e accuracy).2 =
      max e (max (m.log2 + 1 + e - 53) (-1074)) := by
  show e + (((max (m.log2 + 1 + e - 53) (-1074) : ℤ) - e).toNat : ℤ) = _
  omega

theorem roundedMantissa_le (em : ExtendedMantissa) : em.roundedMantissa ≤ em.mantissa + 1 := by
  unfold ExtendedMantissa.roundedMantissa Accuracy.roundToNearestEven
  split <;> omega

theorem log2_lt_of_lt {n k : ℕ} (hk : 0 < k) (h : n < 2 ^ k) : n.log2 < k := by
  by_cases hn : n = 0
  · rwa [hn, Nat.log2_zero]
  · exact (Nat.log2_lt hn).mpr h

theorem log2_le_of_le_succ {m n : ℕ} (h : m ≤ n + 1) : m.log2 ≤ n.log2 + 1 := by
  have hlt : n < 2 ^ (n.log2 + 1) := Nat.lt_log2_self
  have hpow : 2 ^ (n.log2 + 2) = 2 * 2 ^ (n.log2 + 1) := pow_succ' ..
  have hlog := log2_lt_of_lt (Nat.succ_pos (n.log2 + 1)) (n := m) (by omega)
  omega

/-! ## Finite patterns -/

theorem isFinite_unpack_packComponents (s : Sign) {exponent : BitVec 11} (mantissa : BitVec 52)
    (h : exponent ≠ -1#_) :
    (UnpackedFloat.unpack .binary64
      (packComponents .binary64 s exponent mantissa)).isFinite = true := by
  unfold UnpackedFloat.unpack
  simp only [unpackMantissa_packComponents, unpackExponent_packComponents]
  rw [if_neg h]
  split_ifs <;> rfl

theorem isFinite_unpack_pack_finite (s : Sign) {m : ℕ} {e : ℤ} (hm : 0 < m) (he : e ≤ 971) :
    (UnpackedFloat.unpack .binary64
      (UnpackedFloat.pack .binary64 (.finite s m e hm))).isFinite = true := by
  rw [pack_finite s hm he]
  apply isFinite_unpack_packComponents
  split_ifs
  · intro h
    have htoNat := congrArg BitVec.toNat h
    rw [BitVec.toNat_ofNat, show (2 : ℕ) ^ 11 = 2048 from rfl,
      show (-1#11).toNat = 2047 from rfl] at htoNat
    omega
  · decide

/-- The bounds are far from tight. -/
theorem isFinite_unpack_pack_round (s : Sign) {m : ℕ} {e : ℤ} (accuracy : Accuracy)
    (hm : m.log2 ≤ 200) (he : e ≤ 0) :
    (UnpackedFloat.unpack .binary64 (UnpackedFloat.pack .binary64
      (roundWithAccuracy .binary64 s m e accuracy))).isFinite = true := by
  have hexponent := exponent_shiftToTargetExponent m e accuracy
  have hmantissa := mantissa_shiftToTargetExponent_le m e accuracy
  unfold roundWithAccuracy
  generalize shiftToTargetExponent .binary64 m e accuracy = shifted at *
  obtain ⟨em, e'⟩ := shifted
  have hrounded : em.roundedMantissa.log2 ≤ m.log2 + 1 :=
    log2_le_of_le_succ ((roundedMantissa_le em).trans (Nat.add_le_add_right hmantissa 1))
  -- A mantissa that is rounded up may need one more shift.
  have hexponent' := exponent_shiftToTargetExponent em.roundedMantissa e' .exact
  dsimp only at *
  split_ifs
  · exact isFinite_unpack_packComponents s _ (by decide)
  · apply isFinite_unpack_pack_finite
    omega

end Packing

end MatrixLisp
