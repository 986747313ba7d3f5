import MatrixLisp.Proofs.Linear.Access
import MatrixLisp.Proofs.Linear.Bounds

/-!
# Sizes in machine words

The sides of a matrix and the positions in its buffer are unsigned 64-bit words. A construction from a
function refuses its shape before it fills a buffer, also where the product of the sides is no word, and
whatever is built or read of a matrix whose entries can be counted stays within the words and the buffer.
-/
namespace MatrixLisp

open IndexType (word)

namespace Word

/-- The number of entries of a shape that a matrix may be given. -/
def checkLength (rows cols : ℕ) : Except Fault ℕ :=
  match (word.mul? rows cols).filter fun n =>
      n ≤ Matrix.maxSize && rows ≤ Matrix.maxSize && cols ≤ Matrix.maxSize with
  | some n => .ok n
  | none => .error (.matrixTooLarge rows cols Matrix.maxSize)

/-- A product of sides that is no word is too great for a matrix as well. -/
theorem checkLength_eq (rows cols : ℕ) :
    checkLength rows cols = (Matrix.checkShape rows cols).map fun _ => rows * cols := by
  unfold checkLength Matrix.checkShape IndexType.mul? IndexType.check
  have hlimit : Matrix.maxSize < 2 ^ 64 := by decide
  by_cases hword : word.Fits (rows * cols)
  · rw [if_pos hword, Option.filter_some]
    by_cases h : rows * cols ≤ Matrix.maxSize ∧ rows ≤ Matrix.maxSize ∧ cols ≤ Matrix.maxSize
    · rw [if_pos h, if_pos (by simpa [and_assoc] using h)]
      rfl
    · rw [if_neg h, if_neg (by simpa [and_assoc] using h)]
      rfl
  · have h : ¬(rows * cols ≤ Matrix.maxSize ∧ rows ≤ Matrix.maxSize ∧ cols ≤ Matrix.maxSize) :=
      fun h => hword (h.1.trans_lt hlimit)
    rw [if_neg hword, if_neg h]
    rfl

def ofFn? (rows cols : ℕ) (f : ℕ → ℕ → Float) : Option (Except Fault Matrix) :=
  match checkLength rows cols with
  | .ok _ => (word.build? rows cols fun i j => some (f i j)).map .ok
  | .error e => some (.error e)

/-- A matrix of zeros, in a buffer of the length that was checked. -/
def zeros (rows cols : ℕ) : Except Fault Matrix :=
  (checkLength rows cols).map fun n => ⟨rows, cols, Array.replicate n 0.0⟩

def get? (m : Matrix) (i j : ℕ) : Option (Option Float) :=
  if i < m.rows ∧ j < m.cols then (word.entryAt? m i j).map some else some none

end Word

namespace Matrix

variable {rows cols : ℕ}

/-- The entries of a matrix can be counted by a word. A buffer with more of them fits in no memory. -/
def Countable (m : Matrix) : Prop := word.Fits m.data.size

/-! ## Construction -/

theorem ofFn_of_allowed (h : checkShape rows cols = .ok ()) (f : ℕ → ℕ → Float) :
    ofFn rows cols f = .ok (build rows cols f) := by
  rw [ofFn, h]
  rfl

theorem ofFn_of_not_allowed (h : checkShape rows cols ≠ .ok ()) (f : ℕ → ℕ → Float) :
    ofFn rows cols f = .error (.matrixTooLarge rows cols maxSize) := by
  rw [Ne, checkShape_eq_ok_iff] at h
  rw [ofFn, checkShape, if_neg h]
  rfl

theorem zeros_eq_ofFn (rows cols : ℕ) : zeros rows cols = ofFn rows cols fun _ _ => 0.0 := by
  have hdata : Array.replicate (rows * cols) 0.0 =
      Array.ofFn fun _ : Fin (rows * cols) => (0.0 : Float) := by
    refine Array.ext (by simp) fun i _ _ => ?_
    rw [Array.getElem_replicate, Array.getElem_ofFn]
  rw [zeros, hdata]
  rfl

/-- A shape is allowed exactly if neither side nor their product is above the limit. -/
theorem not_allowed_iff : checkShape rows cols ≠ .ok () ↔
    2 ^ 24 < rows ∨ 2 ^ 24 < cols ∨ 2 ^ 24 < rows * cols := by
  rw [Ne, checkShape_eq_ok_iff, show maxSize = 2 ^ 24 from rfl]
  omega

theorem fits_of_allowed (h : checkShape rows cols = .ok ()) : word.Fits (rows * cols) :=
  lt_of_le_of_lt (checkShape_eq_ok_iff.mp h).1 (by decide)

end Matrix

/-! ## Within the words -/

namespace Word

variable {m : Matrix}

theorem ofFn?_eq (rows cols : ℕ) (f : ℕ → ℕ → Float) :
    ofFn? rows cols f = some (Matrix.ofFn rows cols f) := by
  by_cases h : Matrix.checkShape rows cols = .ok ()
  · have hbuild : (word.build? rows cols fun i j => some (f i j)) = some (.build rows cols f) :=
      IndexType.build?_eq (Matrix.fits_of_allowed h) fun _ _ _ _ => rfl
    rw [ofFn?, checkLength_eq, h, Matrix.ofFn_of_allowed h]
    exact congrArg (Option.map Except.ok) hbuild
  · rw [Matrix.ofFn_of_not_allowed h]
    rw [Matrix.checkShape_eq_ok_iff] at h
    rw [ofFn?, checkLength_eq, Matrix.checkShape, if_neg h]
    rfl

theorem zeros_eq (rows cols : ℕ) : zeros rows cols = Matrix.zeros rows cols := by
  rw [zeros, checkLength_eq, Matrix.zeros]
  cases Matrix.checkShape rows cols <;> rfl

theorem get?_eq (h : m.WellFormed) (hm : m.Countable) (i j : ℕ) :
    get? m i j = some (m.get? i j) := by
  rw [get?, h.get?_eq]
  split_ifs with hij
  · rw [IndexType.entryAt?_eq h hm hij.1 hij.2]
    rfl
  · rfl

end Word

namespace Matrix

/-- A construction from a function is refused exactly if a side, or the product of the sides as
numbers without bound, is above the limit; a product that is no word counts like any other. What is
built has the values of the function as its entries, in rows and at no other place, and is built and
read within the words. A matrix of zeros and the identity are such constructions. -/
theorem ofFn_rowMajor (rows cols : ℕ) (f : ℕ → ℕ → Float) :
    ((∃ e, ofFn rows cols f = .error e) ↔
      2 ^ 24 < rows ∨ 2 ^ 24 < cols ∨ 2 ^ 24 < rows * cols) ∧
    (∀ e, ofFn rows cols f = .error e → e.kind = .outOfRange) ∧
    Word.ofFn? rows cols f = some (ofFn rows cols f) ∧
    (∀ m, ofFn rows cols f = .ok m → m.data.size = rows * cols ∧
      (∀ i j, m.get? i j = if i < rows ∧ j < cols then some (f i j) else none) ∧
      (∀ i < rows, m.row i = (List.range cols).map (f i)) ∧
      (∀ i j, Word.get? m i j = some (m.get? i j)) ∧
      ∀ i < rows, word.row? m i = some (m.row i)) ∧
    zeros rows cols = ofFn rows cols (fun _ _ => 0.0) ∧
    Word.zeros rows cols = zeros rows cols ∧
    ∀ n, identity n = ofFn n n fun i j => if i = j then 1.0 else 0.0 := by
  refine ⟨?_, ?_, Word.ofFn?_eq rows cols f, ?_, zeros_eq_ofFn rows cols, Word.zeros_eq rows cols,
    fun _ => rfl⟩
  · rw [← not_allowed_iff]
    by_cases h : checkShape rows cols = .ok ()
    · simp [ofFn_of_allowed h, h]
    · exact iff_of_true ⟨_, ofFn_of_not_allowed h f⟩ h
  · intro e he
    by_cases h : checkShape rows cols = .ok ()
    · rw [ofFn_of_allowed h] at he
      cases he
    · rw [ofFn_of_not_allowed h] at he
      cases he
      rfl
  · intro m hm
    by_cases h : checkShape rows cols = .ok ()
    · rw [ofFn_of_allowed h] at hm
      cases hm
      have hwf := wellFormed_build rows cols f
      have hcount : (build rows cols f).Countable :=
        (congrArg word.Fits hwf).mpr (fits_of_allowed h)
      have hrows : word.Fits rows := lt_of_le_of_lt (checkShape_eq_ok_iff.mp h).2.1 (by decide)
      refine ⟨hwf, get?_build rows cols f, fun i hi => ?_, Word.get?_eq hwf hcount,
        fun i hi => IndexType.row?_eq hwf hcount hrows hi⟩
      rw [hwf.row_eq hi]
      exact List.map_congr_left fun j hj => entry_build hi (List.mem_range.mp hj)
    · rw [ofFn_of_not_allowed h] at hm
      cases hm

end Matrix

end MatrixLisp
