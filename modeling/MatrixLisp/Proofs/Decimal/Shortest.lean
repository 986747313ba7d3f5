import Mathlib.Tactic
import MatrixLisp.Proofs.Decimal.Rounding

/-!
# The search for the shortest decimal

For every magnitude that is not a whole number the search finds a decimal that is read as the
magnitude: the last power of ten that is tried is not above a quarter of the last place, so that the
next multiple of it lies within the interval. A decimal without decimal places is never found, since
the nearest whole numbers are a last place away at least.
-/
namespace MatrixLisp.Magnitude

/-- `2 ^ 93` is less than `10 ^ 28`. -/
theorem two_pow_le_ten_pow {a b : ℕ} (h : 28 * a ≤ 93 * b) : 2 ^ a ≤ 10 ^ b := by
  have hpow : (2 ^ a) ^ 28 ≤ (10 ^ b) ^ 28 := by
    calc (2 ^ a) ^ 28 = 2 ^ (28 * a) := by rw [← pow_mul, Nat.mul_comm]
      _ ≤ 2 ^ (93 * b) := Nat.pow_le_pow_right (by decide) h
      _ = (2 ^ 93) ^ b := by rw [← pow_mul]
      _ ≤ (10 ^ 28) ^ b := Nat.pow_le_pow_left (by decide) b
      _ = (10 ^ b) ^ 28 := by rw [← pow_mul, ← pow_mul, Nat.mul_comm]
  exact (Nat.pow_le_pow_iff_left (by decide)).mp hpow

theorem isReadFrom_of_nearest? {m : Magnitude} {power : ℤ} {digits : ℕ}
    (h : m.nearest? power = some digits) : m.isReadFrom digits power = true := by
  unfold nearest? at h
  dsimp only at h
  split at h
  · cases h
  · rename_i hbelow _
    cases h
    exact hbelow
  · rename_i _ habove
    cases h
    exact habove
  · rename_i hbelow habove
    split_ifs at h
    · cases h
      exact hbelow
    · cases h
      exact habove

/-- A power of ten that is not above a quarter of the last place has a multiple that is read as the
magnitude. -/
theorem isSome_nearest? {m : Magnitude} {power : ℤ}
    (h : (m.quarter power).2 ≤ (m.quarter power).1) : (m.nearest? power).isSome = true := by
  obtain ⟨hnum, hden⟩ := m.quarter_pos power
  have habove : m.isReadFrom (4 * m.mantissa * (m.quarter power).1 / (m.quarter power).2 + 1)
      power = true := by
    have hfloor := Nat.div_mul_le_self (4 * m.mantissa * (m.quarter power).1) (m.quarter power).2
    have hnext := Nat.lt_div_mul_add hden (a := 4 * m.mantissa * (m.quarter power).1)
    apply isReadFrom_of_lt
    · calc m.interval.low * (m.quarter power).1 ≤ 4 * m.mantissa * (m.quarter power).1 :=
          Nat.mul_le_mul_right _ (Nat.sub_le _ _)
        _ < _ := by rw [Nat.add_mul, Nat.one_mul]; exact hnext
    · calc _ ≤ 4 * m.mantissa * (m.quarter power).1 + (m.quarter power).1 := by
            rw [Nat.add_mul, Nat.one_mul]; exact Nat.add_le_add hfloor h
        _ < 4 * m.mantissa * (m.quarter power).1 + 2 * (m.quarter power).1 := by omega
        _ = m.interval.high * (m.quarter power).1 := (Nat.add_mul ..).symm
  unfold nearest?
  dsimp only
  rw [habove]
  split
  · rename_i hnone
    cases hnone
  · rfl
  · rfl
  · split_ifs <;> rfl

section NotWhole

variable {m : Magnitude} (hwhole : m.isWhole = false)
include hwhole

theorem exponent_neg_of_not_isWhole : m.exponent < 0 := by
  by_contra hexponent
  have hzero : (-m.exponent).toNat = 0 := by omega
  rw [isWhole, hzero, Nat.pow_eq, Nat.pow_zero, Nat.mod_one] at hwhole
  cases hwhole

theorem mantissa_ne_zero_of_not_isWhole : m.mantissa ≠ 0 := by
  intro hmantissa
  rw [isWhole, hmantissa, Nat.zero_mod] at hwhole
  cases hwhole

/-- The search finds a decimal that is read as the magnitude. -/
theorem isReadFrom_shortest (hm : m.Canonical) :
    m.isReadFrom m.shortest.1 m.shortest.2 = true := by
  have hmantissa := mantissa_ne_zero_of_not_isWhole hwhole
  have hexponent := exponent_neg_of_not_isWhole hwhole
  have hlog : m.mantissa.log2 < 53 := (Nat.log2_lt hmantissa).mpr hm.mantissa_lt
  have hmin := hm.minExponent_le
  unfold minExponent at hmin
  -- The last power that is tried.
  have hlast : (m.nearest? (m.topPower - 24)).isSome = true := by
    apply isSome_nearest?
    have htop : m.topPower ≤ 16 := by unfold topPower; omega
    have hpow : 2 ^ (2 - m.exponent).toNat ≤ 10 ^ (-(m.topPower - 24)).toNat := by
      apply two_pow_le_ten_pow
      unfold topPower
      omega
    have hzero : (m.exponent - 2).toNat = 0 := by omega
    have hzero' : (m.topPower - 24).toNat = 0 := by omega
    simpa [quarter, hzero, hzero'] using hpow
  rw [shortest, if_neg hmantissa]
  dsimp only
  cases hfind : ((List.range 25).map fun (i : ℕ) => m.topPower - (i : ℤ)).findSome? fun power =>
      (m.nearest? power).map fun digits => (digits, power) with
  | none =>
    have hnone := List.findSome?_eq_none_iff.mp hfind (m.topPower - 24)
      (List.mem_map.mpr ⟨24, by simp, rfl⟩)
    rw [Option.map_eq_none_iff.mp hnone] at hlast
    cases hlast
  | some found =>
    obtain ⟨power, -, hpower⟩ := List.exists_of_findSome?_eq_some hfind
    obtain ⟨digits, hdigits, rfl⟩ := Option.map_eq_some_iff.mp hpower
    exact isReadFrom_of_nearest? hdigits

/-- What is read as the magnitude has decimal places. -/
theorem power_neg_of_isReadFrom {digits : ℕ} {power : ℤ}
    (h : m.isReadFrom digits power = true) : power < 0 := by
  have hexponent := exponent_neg_of_not_isWhole hwhole
  by_contra hpower
  have hnum : (m.quarter power).1 = 1 := by
    have hzero : (m.exponent - 2).toNat = 0 := by omega
    have hzero' : (-power).toNat = 0 := by omega
    simp [quarter, hzero, hzero']
  have hden : digits * (m.quarter power).2 =
      4 * (2 ^ (-m.exponent).toNat * (10 ^ power.toNat * digits)) := by
    have htwo : (2 - m.exponent).toNat = (-m.exponent).toNat + 2 := by omega
    simp only [quarter, Nat.pow_eq, htwo, pow_add]
    ring
  have hlow : 4 * m.mantissa - 2 ≤ m.interval.low := by
    show _ ≤ 4 * m.mantissa - (if _ then 1 else 2)
    split_ifs <;> omega
  have hhigh : m.interval.high = 4 * m.mantissa + 2 := rfl
  have hbounds : m.interval.low ≤ digits * (m.quarter power).2 ∧
      digits * (m.quarter power).2 ≤ m.interval.high ∧ 
        (m.interval.closed = false → digits * (m.quarter power).2 < m.interval.high) := by
    unfold isReadFrom at h
    dsimp only at h
    rw [hnum, Nat.mul_one, Nat.mul_one] at h
    split_ifs at h with hclosed
    · simp only [Bool.and_eq_true, decide_eq_true_eq] at h
      exact ⟨h.1, h.2, by simp [hclosed]⟩
    · simp only [Bool.and_eq_true, decide_eq_true_eq] at h
      exact ⟨h.1.le, h.2.le, fun _ => h.2⟩
  have hmantissa : m.mantissa = 2 ^ (-m.exponent).toNat * (10 ^ power.toNat * digits) := by omega
  have hmod : m.mantissa % 2 ^ (-m.exponent).toNat = 0 := by
    rw [hmantissa, Nat.mul_mod_right]
  rw [isWhole, Nat.pow_eq, hmod] at hwhole
  cases hwhole

end NotWhole

/-- A whole magnitude is its floor. -/
theorem floor_eq_value {m : Magnitude} (h : m.isWhole = true) : (m.floor : ℚ) = m.value := by
  have htwo := zpow_mul_pow_toNat_neg (two_ne_zero (α := ℚ)) m.exponent
  have hvalue : m.value = m.mantissa * 2 ^ m.exponent := by
    rw [value, unit, zpow_sub₀ two_ne_zero]
    norm_num
    ring
  have hdvd : 2 ^ (-m.exponent).toNat ∣ m.mantissa * 2 ^ m.exponent.toNat :=
    Dvd.dvd.mul_right (Nat.dvd_of_mod_eq_zero (beq_iff_eq.mp h)) _
  rw [floor, Nat.pow_eq, Nat.pow_eq, Nat.cast_div hdvd (by positivity), hvalue,
    div_eq_iff (by positivity), Nat.cast_mul, Nat.cast_pow, Nat.cast_pow, Nat.cast_ofNat, mul_assoc,
    htwo]

end MatrixLisp.Magnitude
