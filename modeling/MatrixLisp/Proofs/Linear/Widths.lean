import MatrixLisp.Proofs.Linear.Printed
import MatrixLisp.Proofs.Linear.Words

/-!
# Widths of printed columns

A column is filled to a width of at most 16 bits. The text of an entry is far shorter than that: the
shortest decimal of a float has less than a thousand characters, whatever its power of ten. So a matrix
whose entries can be counted is printed with every access in range and every width within its bits.
-/
namespace MatrixLisp

/-! ## The length of a text -/

namespace Magnitude

variable {m : Magnitude}

/-- The powers of ten that are tried are not far from zero. -/
theorem topPower_mem (hm : m.Canonical) (hle : m.exponent ≤ 972) (h : m.mantissa ≠ 0) :
    -323 ≤ m.topPower ∧ m.topPower ≤ 309 := by
  have hlog : m.mantissa.log2 < 53 := (Nat.log2_lt h).mpr hm.mantissa_lt
  have hmin := hm.minExponent_le
  unfold minExponent at hmin
  unfold topPower
  omega

/-- Digits that are read as a magnitude are not above its upper bound. -/
theorem le_of_isReadFrom {digits : ℕ} {power : ℤ} (h : m.isReadFrom digits power = true) :
    digits ≤ m.interval.high * (m.quarter power).1 := by
  have hden : 0 < (m.quarter power).2 := (m.quarter_pos power).2
  refine (Nat.le_mul_of_pos_right digits hden).trans ?_
  unfold isReadFrom at h
  dsimp only at h
  -- The bound belongs to the interval or not.
  split_ifs at h
  · rw [Bool.and_eq_true, decide_eq_true_eq, decide_eq_true_eq] at h
    exact h.2
  · rw [Bool.and_eq_true, decide_eq_true_eq, decide_eq_true_eq] at h
    exact h.2.le

theorem quarter_le {power : ℤ} {a b : ℕ} (ha : (m.exponent - 2).toNat ≤ a)
    (hb : (-power).toNat ≤ b) : (m.quarter power).1 ≤ 2 ^ a * 10 ^ b :=
  Nat.mul_le_mul (Nat.pow_le_pow_right Nat.two_pos ha) (Nat.pow_le_pow_right (by decide) hb)

/-- The greatest exponent and the least power of ten leave the digits this far. -/
theorem digits_lt (hm : m.Canonical) (hle : m.exponent ≤ 972) {digits : ℕ} {power : ℤ}
    (hpower : -347 ≤ power) (h : m.isReadFrom digits power = true) : digits < 10 ^ 657 := by
  have hmantissa : 4 * m.mantissa + 2 ≤ 2 ^ 56 := by
    have := hm.mantissa_lt
    unfold hidden at this
    omega
  have hquarter : (m.quarter power).1 ≤ 2 ^ 970 * 10 ^ 347 := quarter_le (by omega) (by omega)
  calc digits ≤ m.interval.high * (m.quarter power).1 := le_of_isReadFrom h
    _ ≤ 2 ^ 56 * (2 ^ 970 * 10 ^ 347) := Nat.mul_le_mul hmantissa hquarter
    _ = 2 ^ (56 + 970) * 10 ^ 347 := by rw [← mul_assoc, ← pow_add]
    _ ≤ 10 ^ 309 * 10 ^ 347 := Nat.mul_le_mul_right _ (two_pow_le_ten_pow (by decide))
    _ = 10 ^ (309 + 347) := (pow_add 10 309 347).symm
    _ < 10 ^ 657 := pow_lt_pow_right₀ (by decide) (by decide)

/-- The shortest decimal has not too many digits and a power of ten that is not far from zero. -/
theorem shortest_bounds (hm : m.Canonical) (hle : m.exponent ≤ 972) :
    m.shortest.1 < 10 ^ 657 ∧ m.shortest.2.natAbs ≤ 347 := by
  unfold shortest
  split_ifs with hzero
  · exact ⟨by positivity, by decide⟩
  · obtain ⟨hlow, hhigh⟩ := topPower_mem hm hle hzero
    dsimp only
    cases hfind : ((List.range 25).map fun (i : ℕ) => m.topPower - (i : ℤ)).findSome? fun power =>
        (m.nearest? power).map fun digits => (digits, power) with
    | none => exact ⟨by rw [Option.getD_none]; positivity, by rw [Option.getD_none]; decide⟩
    | some found =>
      obtain ⟨power, hmem, hfound⟩ := List.exists_of_findSome?_eq_some hfind
      obtain ⟨i, hi, rfl⟩ := List.mem_map.mp hmem
      obtain ⟨digits, hdigits, rfl⟩ := Option.map_eq_some_iff.mp hfound
      have hi := List.mem_range.mp hi
      rw [Option.getD_some]
      exact ⟨digits_lt hm hle (by omega) (isReadFrom_of_nearest? hdigits), by omega⟩

theorem exponent_ofBits_le (bits : ℕ) : (ofBits bits).exponent ≤ 972 := by
  unfold ofBits minExponent
  dsimp only
  split_ifs <;> dsimp only <;> omega

end Magnitude

namespace FloatText

theorem length_toDigits_le {n k : ℕ} (hk : 0 < k) (h : n < 10 ^ k) :
    (Nat.toDigits 10 n).length ≤ k :=
  (Nat.length_toDigits_le_iff (by decide) hk).mpr h

theorem length_positional_le (digits : ℕ) (power : ℤ) :
    (positional digits power).length ≤ (Nat.toDigits 10 digits).length + power.natAbs + 2 := by
  unfold positional
  dsimp only
  split_ifs
  · rw [String.length_ofList, List.length_append, List.length_replicate]
    omega
  · rw [String.length_ofList, List.length_append, List.length_cons, List.length_take,
      List.length_drop, List.length_append, List.length_replicate]
    omega

theorem length_sign_le (x : Float) : (sign x).length ≤ 1 := by
  unfold sign
  split_ifs <;> decide

theorem length_plain_le (x : Float) : (plain x).length ≤ 1007 := by
  have hsign := length_sign_le x
  unfold plain
  split_ifs
  · decide
  · obtain ⟨hdigits, hpower⟩ := Magnitude.shortest_bounds
      (Magnitude.canonical_ofBits x.toBits.toNat) (Magnitude.exponent_ofBits_le _)
    have hlength := length_toDigits_le (by decide) hdigits
    have htext := length_positional_le (magnitude x).shortest.1 (magnitude x).shortest.2
    unfold magnitude at htext ⊢
    rw [String.length_append]
    omega
  · rw [String.length_append]
    exact Nat.add_le_add hsign (show 3 ≤ 1006 by decide)

theorem length_cell_le (x : Float) : (cell x).length ≤ 1007 := by
  unfold cell
  dsimp only
  split_ifs with hwhole hzero
  · decide
  · have hlimit : (magnitude x).floor < 10 ^ 15 := by
      rw [Bool.and_eq_true, decide_eq_true_eq] at hwhole
      exact hwhole.2
    have hdigits : (toString (magnitude x).floor).length ≤ 15 := by
      rw [← String.length_toList, show (toString (magnitude x).floor).toList = _ from Nat.toList_repr]
      exact length_toDigits_le (by decide) hlimit
    have hsign := length_sign_le x
    rw [String.length_append]
    omega
  · exact length_plain_le x

end FloatText

/-! ## Printing within the words -/

theorem Matrix.WellFormed.columnWidth_lt {m : Matrix} (h : m.WellFormed) {j : ℕ} (hj : j < m.cols) :
    m.columnWidth m.cells j < 2 ^ 16 := by
  by_cases hrows : 0 < m.rows
  · obtain ⟨i, x, -, hx⟩ := (h.isGreatest_columnWidth hrows hj).1
    rw [← hx]
    exact (FloatText.length_cell_le x).trans_lt (by decide)
  · rw [columnWidth, Nat.eq_zero_of_not_pos hrows]
    exact Nat.two_pow_pos 16

namespace Word

/-- The text in a buffer of texts for a row and a column. -/
def cellAt? (m : Matrix) (cells : Array String) (i j : ℕ) : Option String := do
  cells[← IndexType.word.position? m.cols i j]?

/-- A text with spaces before it, to fill a width that has 16 bits. -/
def alignRight? (width : ℕ) (s : String) : Option String :=
  if width < 2 ^ 16 then some (Matrix.alignRight width s) else none

def columnWidth? (m : Matrix) (cells : Array String) (j : ℕ) : Option ℕ := do
  let texts ← (List.range m.rows).mapM fun i => cellAt? m cells i j
  return texts.foldl (fun width s => max width s.length) 0

def rowText? (m : Matrix) (cells : Array String) (widths : List ℕ) (i : ℕ) : Option String := do
  let texts ← widths.zipIdx.mapM fun (width, j) => do alignRight? width (← cellAt? m cells i j)
  return " ".intercalate texts

def text? (m : Matrix) : Option String := do
  let widths ← (List.range m.cols).mapM (columnWidth? m m.cells)
  let lines ← (List.range m.rows).mapM (rowText? m m.cells widths)
  return "[" ++ "\n ".intercalate lines ++ "]"

variable {m : Matrix} (h : m.WellFormed) (hm : m.Countable)
include h hm

theorem cellAt?_eq {i j : ℕ} (hi : i < m.rows) (hj : j < m.cols) :
    cellAt? m m.cells i j = some (m.cells.getD (i * m.cols + j) "") := by
  have hlt : i * m.cols + j < m.cells.size := by
    rw [Matrix.cells, Array.size_map]
    exact h.index_lt hi hj
  rw [cellAt?, IndexType.position?_eq ((h.index_lt hi hj).trans hm), Array.getD_eq_getD_getElem?,
    Array.getElem?_eq_getElem hlt]
  exact Array.getElem?_eq_getElem hlt

theorem columnWidth?_eq {j : ℕ} (hj : j < m.cols) :
    columnWidth? m m.cells j = some (m.columnWidth m.cells j) := by
  rw [columnWidth?, Collect.mapM_eq_some fun i hi => cellAt?_eq h hm (List.mem_range.mp hi) hj]
  exact congrArg some List.foldl_map

theorem rowText?_eq {i : ℕ} (hi : i < m.rows) :
    rowText? m m.cells ((List.range m.cols).map (m.columnWidth m.cells)) i =
      some (m.rowText m.cells ((List.range m.cols).map (m.columnWidth m.cells)) i) := by
  rw [rowText?, Collect.mapM_eq_some fun entry hentry => ?_]
  · rfl
  · obtain ⟨width, j⟩ := entry
    obtain ⟨hj, rfl⟩ : j < m.cols ∧ m.columnWidth m.cells j = width := by
      simpa [List.mk_mem_zipIdx_iff_getElem?, List.getElem?_eq_some_iff] using hentry
    show (cellAt? m m.cells i j).bind (alignRight? _) = _
    rw [cellAt?_eq h hm hi hj, Option.bind_some]
    exact if_pos (h.columnWidth_lt hj)

/-- A matrix whose entries can be counted is printed within the words. -/
theorem text?_eq : text? m = some m.text := by
  rw [text?, Collect.mapM_eq_some fun j hj => columnWidth?_eq h hm (List.mem_range.mp hj)]
  simp only [Option.bind_eq_bind, Option.bind_some]
  rw [Collect.mapM_eq_some fun i hi => rowText?_eq h hm (List.mem_range.mp hi)]
  rfl

end Word

end MatrixLisp
