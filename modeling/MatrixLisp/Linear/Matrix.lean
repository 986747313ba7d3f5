import MatrixLisp.Linear.NumVector

/-!
# Matrices

A matrix keeps its entries in one row-major buffer. `build` fills the buffer from a function of row
and column, and `ofFn` does so after a check of the shape; products and transposes only rearrange
shapes that exist already and use `build`. Printed, the columns are right-aligned.
-/
namespace MatrixLisp

structure Matrix where
  rows : Nat
  cols : Nat
  data : Array Float
  deriving BEq

namespace Matrix

/-- The buffer holds one entry for each row and column. -/
def WellFormed (m : Matrix) : Prop := m.data.size = m.rows * m.cols

/-- The greatest number of entries, and the greatest single dimension, of a checked shape. -/
def maxSize : Nat := 16777216

def shape (m : Matrix) : Nat × Nat := (m.rows, m.cols)

def empty : Matrix := ⟨0, 0, #[]⟩

def isEmpty (m : Matrix) : Bool := m.rows == 0

/-- The entry in the buffer for a row and a column. -/
def entry (m : Matrix) (i j : Nat) : Float := m.data.getD (i * m.cols + j) 0.0

/-- The entry in a row and a column, if the matrix has both. -/
def get? (m : Matrix) (i j : Nat) : Option Float :=
  if i < m.rows ∧ j < m.cols then m.data[i * m.cols + j]? else none

def row (m : Matrix) (i : Nat) : List Float :=
  (m.data.extract (i * m.cols) ((i + 1) * m.cols)).toList

def build (rows cols : Nat) (f : Nat → Nat → Float) : Matrix :=
  ⟨rows, cols, Array.ofFn fun k : Fin (rows * cols) => f (k / cols) (k % cols)⟩

theorem wellFormed_build (rows cols : Nat) (f : Nat → Nat → Float) :
    (build rows cols f).WellFormed := by
  simp [WellFormed, build]

/-- The position of an entry in the buffer is below the number of entries. -/
theorem index_lt {rows cols i j : Nat} (hi : i < rows) (hj : j < cols) :
    i * cols + j < rows * cols :=
  calc
    i * cols + j < i * cols + cols := Nat.add_lt_add_left hj _
    _ = (i + 1) * cols := (Nat.succ_mul i cols).symm
    _ ≤ rows * cols := Nat.mul_le_mul_right cols hi

/-- The row and the column of a position in the buffer. -/
theorem index_div_mod {cols j : Nat} (i : Nat) (hj : j < cols) :
    (i * cols + j) / cols = i ∧ (i * cols + j) % cols = j := by
  constructor
  · rw [Nat.mul_comm, Nat.mul_add_div (Nat.zero_lt_of_lt hj), Nat.div_eq_of_lt hj, Nat.add_zero]
  · rw [Nat.mul_comm, Nat.mul_add_mod, Nat.mod_eq_of_lt hj]

/-- A built matrix has the given entries and no others. -/
theorem get?_build (rows cols : Nat) (f : Nat → Nat → Float) (i j : Nat) :
    (build rows cols f).get? i j = if i < rows ∧ j < cols then some (f i j) else none := by
  unfold get?
  by_cases h : i < rows ∧ j < cols
  · obtain ⟨hi, hj⟩ := h
    have hlt := index_lt hi hj
    obtain ⟨hdiv, hmod⟩ := index_div_mod i hj
    rw [if_pos ⟨hi, hj⟩, if_pos ⟨hi, hj⟩]
    show (Array.ofFn fun k : Fin (rows * cols) => f (k / cols) (k % cols))[i * cols + j]? =
      some (f i j)
    rw [Array.getElem?_ofFn, dif_pos hlt]
    show some (f ((i * cols + j) / cols) ((i * cols + j) % cols)) = some (f i j)
    rw [hdiv, hmod]
  · rw [if_neg h]
    exact if_neg h

/-- A shape that a matrix may be given. -/
def checkShape (rows cols : Nat) : Except Fault Unit :=
  if rows * cols ≤ maxSize ∧ rows ≤ maxSize ∧ cols ≤ maxSize then .ok ()
  else .error (.matrixTooLarge rows cols maxSize)

/-- The matrix with given entries, if its shape is allowed. -/
def ofFn (rows cols : Nat) (f : Nat → Nat → Float) : Except Fault Matrix := do
  checkShape rows cols
  return build rows cols f

def zeros (rows cols : Nat) : Except Fault Matrix := do
  checkShape rows cols
  return ⟨rows, cols, Array.replicate (rows * cols) 0.0⟩

def identity (n : Nat) : Except Fault Matrix :=
  ofFn n n fun i j => if i = j then 1.0 else 0.0

/-- The matrix with given rows, which must have one length. -/
def ofRows (rows : List (List Float)) : Except Fault Matrix :=
  let cols := (rows.head?.map List.length).getD 0
  match rows.zipIdx.find? fun (row, _) => row.length != cols with
  | some (row, i) => .error (.raggedRow i row.length cols)
  | none => .ok ⟨rows.length, cols, rows.flatten.toArray⟩

def transpose (m : Matrix) : Matrix :=
  build m.cols m.rows fun i j => m.entry j i

def dot (a b : Matrix) : Except Fault Matrix :=
  if a.cols = b.rows then
    .ok (build a.rows b.cols fun i j =>
      sumFloats ((List.range a.cols).map fun k => a.entry i k * b.entry k j))
  else .error (.matrixProduct a.shape b.shape)

def nearlyEqual (a b : Matrix) : Bool :=
  a.shape == b.shape && nearlyEqualFloats a.data b.data

/-- The operator on the entries of two matrices of one shape. -/
def zipWith (op : Arith) (a b : Matrix) : Except Fault Matrix :=
  if a.shape = b.shape then (op.zipFloats a.data b.data).map fun data => { a with data := data }
  else .error (.matrixShapes op a.shape b.shape)

/-- The operator with the same right operand for every entry. -/
def broadcast (op : Arith) (a : Matrix) (y : Float) : Except Fault Matrix :=
  (op.broadcastFloats a.data y).map fun data => { a with data := data }

def alignRight (width : Nat) (s : String) : String :=
  String.ofList (List.replicate (width - s.length) ' ') ++ s

/-- The texts of the entries, in the order of the buffer. -/
def cells (m : Matrix) : Array String := m.data.map FloatText.cell

/-- The length of the longest text in a column. -/
def columnWidth (m : Matrix) (cells : Array String) (j : Nat) : Nat :=
  (List.range m.rows).foldl (fun width i => max width (cells.getD (i * m.cols + j) "").length) 0

/-- A row as it is printed, each text right-aligned in its column. -/
def rowText (m : Matrix) (cells : Array String) (widths : List Nat) (i : Nat) : String :=
  " ".intercalate (widths.zipIdx.map fun (width, j) =>
    alignRight width (cells.getD (i * m.cols + j) ""))

/-- The matrix as it is printed: one line for each row. -/
def text (m : Matrix) : String :=
  let cells := m.cells
  let widths := (List.range m.cols).map (m.columnWidth cells)
  "[" ++ "\n ".intercalate ((List.range m.rows).map (m.rowText cells widths)) ++ "]"

end Matrix

end MatrixLisp
