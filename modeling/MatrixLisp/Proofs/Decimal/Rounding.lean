import Mathlib.Tactic
import MatrixLisp.Decimal.Shortest

/-!
# The decimals that round to a magnitude

The exact tests of `isReadFrom` tell whether a decimal, as a rational number, lies in the interval
of a magnitude. The intervals of two magnitudes that bit patterns encode do not overlap, and where
they meet at most one of them is closed. So a decimal is read as one magnitude at most.
-/
namespace MatrixLisp.Magnitude

/-- A magnitude as bit patterns encode it: the leading bit of the mantissa is set unless the
exponent is the smallest. -/
structure Canonical (m : Magnitude) : Prop where
  mantissa_lt : m.mantissa < 2 * hidden
  minExponent_le : minExponent ≤ m.exponent
  hidden_le : minExponent < m.exponent → hidden ≤ m.mantissa

theorem canonical_ofBits (bits : ℕ) : (ofBits bits).Canonical := by
  have hfraction : bits % hidden < hidden := Nat.mod_lt _ (by decide)
  unfold ofBits
  dsimp only
  split_ifs with h
  · exact ⟨by dsimp only; omega, le_refl _, fun hlt => absurd hlt (lt_irrefl _)⟩
  · exact ⟨by dsimp only; omega, by dsimp only; omega, fun _ => by dsimp only; omega⟩

/-- A magnitude is encoded by one bit pattern, up to the sign. -/
theorem ofBits_inj {b b' : ℕ} (h : ofBits b = ofBits b') :
    b % (2048 * hidden) = b' % (2048 * hidden) := by
  have hfraction : b % hidden < hidden := Nat.mod_lt _ (by decide)
  have hfraction' : b' % hidden < hidden := Nat.mod_lt _ (by decide)
  have hsplit : ∀ n, n % (2048 * hidden) = n % hidden + hidden * (n / hidden % 2048) := by
    intro n
    rw [Nat.mul_comm, Nat.mod_mul]
  unfold ofBits at h
  dsimp only at h
  rw [hsplit, hsplit]
  split_ifs at h with hzero hzero' hzero'
  · rw [hzero, hzero', (Magnitude.mk.inj h).1]
  · have hmantissa := (Magnitude.mk.inj h).1
    omega
  · have hmantissa := (Magnitude.mk.inj h).1
    omega
  · obtain ⟨hmantissa, hexponent⟩ := Magnitude.mk.inj h
    have hbits : b / hidden % 2048 = b' / hidden % 2048 := by omega
    rw [hbits]
    omega

/-- A quarter of the last place. -/
def unit (m : Magnitude) : ℚ := 2 ^ (m.exponent - 2)

theorem unit_pos (m : Magnitude) : 0 < m.unit := zpow_pos (by norm_num) _

/-- The number that a magnitude is. -/
def value (m : Magnitude) : ℚ := 4 * m.mantissa * m.unit

/-- A number lies between the bounds of a magnitude, and on a bound only if they belong to it. -/
structure Rounds (m : Magnitude) (q : ℚ) : Prop where
  low_le : m.interval.low * m.unit ≤ q
  le_high : q ≤ m.interval.high * m.unit
  inside : m.interval.closed = false → m.interval.low * m.unit ≠ q ∧ q ≠ m.interval.high * m.unit

/-- A magnitude rounds to itself. -/
theorem rounds_value (m : Magnitude) : m.Rounds m.value := by
  have hunit := m.unit_pos
  have hlow : m.interval.low ≤ 4 * m.mantissa := Nat.sub_le _ _
  have hhigh : 4 * m.mantissa < m.interval.high := by
    show 4 * m.mantissa < 4 * m.mantissa + 2
    omega
  have hlow' : (m.interval.low : ℚ) ≤ 4 * m.mantissa := by exact_mod_cast hlow
  have hhigh' : (4 * m.mantissa : ℚ) < m.interval.high := by exact_mod_cast hhigh
  refine ⟨mul_le_mul_of_nonneg_right hlow' hunit.le, ?_, fun hopen => ⟨?_, ?_⟩⟩
  · exact (mul_lt_mul_of_pos_right hhigh' hunit).le
  · have hodd : m.mantissa % 2 ≠ 0 := by simpa [interval] using hopen
    have hlt : m.interval.low < 4 * m.mantissa := by
      show 4 * m.mantissa - (if _ then 1 else 2) < _
      split_ifs <;> omega
    have hlt' : (m.interval.low : ℚ) < 4 * m.mantissa := by exact_mod_cast hlt
    exact (mul_lt_mul_of_pos_right hlt' hunit).ne
  · exact (mul_lt_mul_of_pos_right hhigh' hunit).ne

theorem quarter_pos (m : Magnitude) (power : ℤ) :
    0 < (m.quarter power).1 ∧ 0 < (m.quarter power).2 :=
  ⟨Nat.mul_pos (Nat.pow_pos (by decide)) (Nat.pow_pos (by decide)),
    Nat.mul_pos (Nat.pow_pos (by decide)) (Nat.pow_pos (by decide))⟩

/-- A power of a number is the quotient of two natural powers of it. -/
theorem zpow_mul_pow_toNat_neg {a : ℚ} (ha : a ≠ 0) (n : ℤ) :
    a ^ n * a ^ (-n).toNat = a ^ n.toNat := by
  rw [← zpow_natCast, ← zpow_natCast, ← zpow_add₀ ha]
  congr 1
  omega

/-- The fraction that `quarter` gives is that of a quarter of the last place and the power of ten. -/
theorem exists_scale (m : Magnitude) (power : ℤ) :
    ∃ c : ℚ, 0 < c ∧ ((m.quarter power).1 : ℚ) = m.unit * c ∧
      ((m.quarter power).2 : ℚ) = 10 ^ power * c := by
  have htwo := zpow_mul_pow_toNat_neg (two_ne_zero (α := ℚ)) (m.exponent - 2)
  have hten := zpow_mul_pow_toNat_neg (by norm_num : (10 : ℚ) ≠ 0) power
  have hneg : (-(m.exponent - 2)).toNat = (2 - m.exponent).toNat := by congr 1; omega
  rw [hneg] at htwo
  refine ⟨2 ^ (2 - m.exponent).toNat * 10 ^ (-power).toNat, by positivity, ?_, ?_⟩
  · simp only [quarter, unit, Nat.pow_eq, Nat.cast_mul, Nat.cast_pow, Nat.cast_ofNat]
    rw [← htwo]
    ring
  · simp only [quarter, Nat.pow_eq, Nat.cast_mul, Nat.cast_pow, Nat.cast_ofNat]
    rw [← hten]
    ring

/-- What is read as a magnitude rounds to it. -/
theorem rounds_of_isReadFrom {m : Magnitude} {digits : ℕ} {power : ℤ}
    (h : m.isReadFrom digits power = true) : m.Rounds (digits * 10 ^ power) := by
  obtain ⟨c, hc, hnum, hden⟩ := m.exists_scale power
  have hbound : ∀ n : ℕ, ((n * (m.quarter power).1 : ℕ) : ℚ) = n * m.unit * c := by
    intro n
    rw [Nat.cast_mul, hnum, mul_assoc]
  have hdecimal : ((digits * (m.quarter power).2 : ℕ) : ℚ) = digits * 10 ^ power * c := by
    rw [Nat.cast_mul, hden, mul_assoc]
  cases hclosed : m.interval.closed with
  | true =>
    simp only [isReadFrom, hclosed, if_true, Bool.and_eq_true, decide_eq_true_eq,
      ← Nat.cast_le (α := ℚ), hbound, hdecimal, mul_le_mul_iff_of_pos_right hc] at h
    refine ⟨h.1, h.2, fun hopen => ?_⟩
    rw [hclosed] at hopen
    cases hopen
  | false =>
    simp only [isReadFrom, hclosed, Bool.false_eq_true, if_false, Bool.and_eq_true,
      decide_eq_true_eq, ← Nat.cast_lt (α := ℚ), hbound, hdecimal,
      mul_lt_mul_iff_of_pos_right hc] at h
    exact ⟨h.1.le, h.2.le, fun _ => ⟨h.1.ne, h.2.ne⟩⟩

theorem isReadFrom_of_lt {m : Magnitude} {digits : ℕ} {power : ℤ}
    (hlow : m.interval.low * (m.quarter power).1 < digits * (m.quarter power).2)
    (hhigh : digits * (m.quarter power).2 < m.interval.high * (m.quarter power).1) :
    m.isReadFrom digits power = true := by
  unfold isReadFrom
  dsimp only
  split_ifs
  · simp [hlow.le, hhigh.le]
  · simp [hlow, hhigh]

theorem isClosed_iff (m : Magnitude) : m.interval.closed = true ↔ m.mantissa % 2 = 0 := beq_iff_eq

theorem low_le (m : Magnitude) : 4 * m.mantissa - 2 ≤ m.interval.low := by
  show _ ≤ 4 * m.mantissa - (if _ then 1 else 2)
  split_ifs <;> omega

/-- In the last places of the lesser of two magnitudes, the greater one begins where the lesser ends
or later. -/
theorem exists_low_between {m n : Magnitude} (hm : m.Canonical) (hn : n.Canonical)
    (h : m.exponent < n.exponent ∨ m.exponent = n.exponent ∧ m.mantissa < n.mantissa) :
    ∃ k : ℕ, k * m.unit ≤ n.interval.low * n.unit ∧ m.interval.high ≤ k ∧
      (m.interval.closed = true → n.interval.closed = true → m.interval.high < k) := by
  have hhigh : m.interval.high = 4 * m.mantissa + 2 := rfl
  rw [isClosed_iff, isClosed_iff, hhigh]
  obtain h | ⟨hexponent, hless⟩ := h
  · -- The leading bit of the greater one is set, and its last place is at least twice as great.
    have hmantissa := hm.mantissa_lt
    have hnormal := lt_of_le_of_lt hm.minExponent_le h
    have hhidden := hn.hidden_le hnormal
    have hlow : 4 * hidden - 1 ≤ n.interval.low := by
      show _ ≤ 4 * n.mantissa - (if _ then 1 else 2)
      split_ifs <;> omega
    have htwice : m.unit * 2 ≤ n.unit := by
      have hpow : (2 : ℚ) ^ (m.exponent - 2 + 1) ≤ n.unit :=
        zpow_le_zpow_right₀ (by norm_num) (by omega)
      rwa [zpow_add_one₀ two_ne_zero] at hpow
    refine ⟨n.interval.low * 2, ?_, by omega, fun _ _ => by unfold hidden at *; omega⟩
    rw [Nat.cast_mul, mul_assoc, mul_comm _ m.unit]
    exact mul_le_mul_of_nonneg_left htwice (Nat.cast_nonneg _)
  · have hlow := n.low_le
    have hsame : n.unit = m.unit := by rw [unit, unit, hexponent]
    exact ⟨n.interval.low, by rw [hsame], by omega, fun _ _ => by omega⟩

/-- The lesser of two magnitudes ends before the greater one begins, or they meet in a bound that
does not belong to both. -/
theorem high_le_low {m n : Magnitude} (hm : m.Canonical) (hn : n.Canonical)
    (h : m.exponent < n.exponent ∨ m.exponent = n.exponent ∧ m.mantissa < n.mantissa) :
    m.interval.high * m.unit ≤ n.interval.low * n.unit ∧
      (m.interval.closed = true → n.interval.closed = true →
        m.interval.high * m.unit < n.interval.low * n.unit) := by
  obtain ⟨k, hk, hle, hlt⟩ := exists_low_between hm hn h
  have hunit := m.unit_pos
  constructor
  · have hle' : (m.interval.high : ℚ) ≤ k := Nat.cast_le.mpr hle
    exact (mul_le_mul_of_nonneg_right hle' hunit.le).trans hk
  · intro hclosed hclosed'
    have hlt' : (m.interval.high : ℚ) < k := Nat.cast_lt.mpr (hlt hclosed hclosed')
    exact (mul_lt_mul_of_pos_right hlt' hunit).trans_le hk

/-- No number rounds to two magnitudes. -/
theorem Rounds.unique {m n : Magnitude} (hm : m.Canonical) (hn : n.Canonical) {q : ℚ}
    (h : m.Rounds q) (h' : n.Rounds q) : m = n := by
  have hapart : ∀ {m n : Magnitude}, m.Canonical → n.Canonical → m.Rounds q → n.Rounds q →
      ¬(m.exponent < n.exponent ∨ m.exponent = n.exponent ∧ m.mantissa < n.mantissa) := by
    intro m n hm hn h h' hless
    obtain ⟨hle, hlt⟩ := high_le_low hm hn hless
    have hhigh : q = m.interval.high * m.unit := le_antisymm h.le_high (hle.trans h'.low_le)
    have hlow : n.interval.low * n.unit = q := le_antisymm h'.low_le (h.le_high.trans hle)
    cases hclosed : m.interval.closed with
    | false => exact (h.inside hclosed).2 hhigh
    | true =>
      cases hclosed' : n.interval.closed with
      | false => exact (h'.inside hclosed').1 hlow
      | true => exact absurd (hhigh.symm.trans hlow.symm) (hlt hclosed hclosed').ne
  have hless := hapart hm hn h h'
  have hgreater := hapart hn hm h' h
  obtain ⟨mantissa, exponent⟩ := m
  obtain ⟨mantissa', exponent'⟩ := n
  dsimp only at hless hgreater
  rw [Magnitude.mk.injEq]
  omega

end MatrixLisp.Magnitude
