import MatrixLisp.Proofs.Collect
import MatrixLisp.Proofs.Linear.Entries

/-!
# Access to the buffer

An entry is read at a position of the buffer, and a row is a part of it. Here every access is checked:
what reads a position behind the end of a buffer, or takes a part that reaches beyond it, has no result.
So is every sum and every product of sides and positions, which is to be a number of a given type.
Well-formed matrices whose sizes are of the type are transposed, multiplied and cut into rows without
failing a check, so that checking changes nothing.
-/
namespace MatrixLisp

/-- The numbers that sides and positions can be. With a number, all smaller ones are among them. -/
structure IndexType where
  Fits : ℕ → Prop
  decidable : DecidablePred Fits
  fits_of_le : ∀ {a b : ℕ}, a ≤ b → Fits b → Fits a

namespace IndexType

instance (t : IndexType) : DecidablePred t.Fits := t.decidable

/-- All numbers. -/
def unbounded : IndexType where
  Fits _ := True
  decidable _ := .isTrue trivial
  fits_of_le _ _ := trivial

/-- The unsigned 64-bit words. -/
def word : IndexType where
  Fits n := n < 2 ^ 64
  decidable _ := inferInstance
  fits_of_le := lt_of_le_of_lt

variable (t : IndexType)

/-- A number, if it is of the type. -/
def check (n : ℕ) : Option ℕ := if t.Fits n then some n else none

def add? (a b : ℕ) : Option ℕ := t.check (a + b)

def mul? (a b : ℕ) : Option ℕ := t.check (a * b)

/-- The position in the buffer for a row and a column. -/
def position? (cols i j : ℕ) : Option ℕ := do t.add? (← t.mul? i cols) j

/-- The entry in the buffer for a row and a column, if the buffer reaches that far. -/
def entryAt? (m : Matrix) (i j : ℕ) : Option Float := do m.data[← t.position? m.cols i j]?

/-- The entries of a row, if the buffer reaches to the end of the row. -/
def row? (m : Matrix) (i : ℕ) : Option (List Float) := do
  let start ← t.mul? i m.cols
  let stop ← t.mul? (← t.add? i 1) m.cols
  if start ≤ stop ∧ stop ≤ m.data.size then some (m.data.extract start stop).toList else none

/-- The matrix whose entries are computed row by row, if each of them has a value. -/
def build? (rows cols : ℕ) (f : ℕ → ℕ → Option Float) : Option Matrix := do
  let _ ← t.mul? rows cols
  let entries ← (List.range rows).mapM fun i => (List.range cols).mapM (f i)
  return ⟨rows, cols, entries.flatten.toArray⟩

def transpose? (m : Matrix) : Option Matrix := t.build? m.cols m.rows fun i j => t.entryAt? m j i

/-- The term of a product for a position in a row of one operand and a column of the other. -/
def term? (a b : Matrix) (i j k : ℕ) : Option Float := do
  let x ← t.entryAt? a i k
  let y ← t.entryAt? b k j
  return x * y

def dot? (a b : Matrix) : Option (Except Fault Matrix) :=
  if a.cols = b.rows then
    (t.build? a.rows b.cols fun i j =>
      ((List.range a.cols).mapM (t.term? a b i j)).map sumFloats).map Except.ok
  else some (.error (.matrixProduct a.shape b.shape))

variable {t} {a b m : Matrix} {rows cols i j : ℕ}

theorem check_of_fits {n : ℕ} (h : t.Fits n) : t.check n = some n := if_pos h

theorem position?_eq (h : t.Fits (i * cols + j)) : t.position? cols i j = some (i * cols + j) := by
  rw [position?, mul?, check_of_fits (t.fits_of_le (Nat.le_add_right ..) h)]
  exact check_of_fits h

theorem entryAt?_eq (h : m.WellFormed) (hm : t.Fits m.data.size) (hi : i < m.rows)
    (hj : j < m.cols) : t.entryAt? m i j = some (m.entry i j) := by
  rw [entryAt?, position?_eq (t.fits_of_le (h.index_lt hi hj).le hm)]
  exact h.getElem?_eq hi hj

theorem row?_eq (h : m.WellFormed) (hm : t.Fits m.data.size) (hrows : t.Fits m.rows)
    (hi : i < m.rows) : t.row? m i = some (m.row i) := by
  have hstop : (i + 1) * m.cols ≤ m.data.size := h ▸ Nat.mul_le_mul_right m.cols hi
  have hstart : i * m.cols ≤ (i + 1) * m.cols := Nat.mul_le_mul_right m.cols (Nat.le_succ i)
  rw [row?, mul?, check_of_fits (t.fits_of_le (hstart.trans hstop) hm), add?,
    check_of_fits (t.fits_of_le hi hrows)]
  simp only [Option.bind_eq_bind, Option.bind_some]
  rw [mul?, check_of_fits (t.fits_of_le hstop hm)]
  exact if_pos ⟨hstart, hstop⟩

theorem build?_eq {f : ℕ → ℕ → Option Float} {g : ℕ → ℕ → Float} (hsize : t.Fits (rows * cols))
    (h : ∀ i < rows, ∀ j < cols, f i j = some (g i j)) :
    t.build? rows cols f = some (.build rows cols g) := by
  have hrow : ∀ i ∈ List.range rows,
      (List.range cols).mapM (f i) = some ((List.range cols).map (g i)) :=
    fun i hi => Collect.mapM_eq_some fun j hj => h i (List.mem_range.mp hi) j (List.mem_range.mp hj)
  rw [build?, mul?, check_of_fits hsize, Collect.mapM_eq_some hrow, Matrix.build_eq_flatten]
  rfl

theorem transpose?_eq (h : m.WellFormed) (hm : t.Fits m.data.size) :
    t.transpose? m = some m.transpose := by
  have hsize : t.Fits (m.cols * m.rows) := by
    rw [Nat.mul_comm, ← h]
    exact hm
  exact build?_eq hsize fun i hi j hj => entryAt?_eq h hm hj hi

theorem term?_eq (ha : a.WellFormed) (hb : b.WellFormed) (haSize : t.Fits a.data.size)
    (hbSize : t.Fits b.data.size) {k : ℕ} (hi : i < a.rows) (hk : k < a.cols) (hk' : k < b.rows)
    (hj : j < b.cols) : t.term? a b i j k = some (a.entry i k * b.entry k j) := by
  rw [term?, entryAt?_eq ha haSize hi hk, entryAt?_eq hb hbSize hk' hj]
  rfl

/-- A product is computed within the type if its own size is of the type. -/
theorem dot?_eq (ha : a.WellFormed) (hb : b.WellFormed) (haSize : t.Fits a.data.size)
    (hbSize : t.Fits b.data.size) (hsize : a.cols = b.rows → t.Fits (a.rows * b.cols)) :
    t.dot? a b = some (a.dot b) := by
  unfold dot? Matrix.dot
  split_ifs with h
  · rw [build?_eq (hsize h) fun i hi j hj => ?_]
    · rfl
    · have hterm : ∀ k ∈ List.range a.cols, t.term? a b i j k = some (a.entry i k * b.entry k j) := by
        intro k hk
        have hk := List.mem_range.mp hk
        exact term?_eq ha hb haSize hbSize hi hk (h ▸ hk) hj
      rw [Collect.mapM_eq_some hterm]
      rfl
  · rfl

/-- A product whose size is not of the type is not computed. -/
theorem dot?_eq_none (h : a.cols = b.rows) (hsize : ¬t.Fits (a.rows * b.cols)) :
    t.dot? a b = none := by
  rw [dot?, if_pos h, build?, mul?, check, if_neg hsize]
  rfl

end IndexType

end MatrixLisp
