import Mathlib.Tactic
import MatrixLisp.Proofs.Value.Operations

/-!
# Sizes of derived matrices

A constructor checks the shape it is given; what is derived from a matrix is built without a check.
Operations on the entries keep the shape and a transpose swaps its sides, so they stay within the
limit. A product takes its rows from one operand and its columns from the other: each side is within
the limit, but two thin operands can have a product with too many entries. It is within the limit
exactly if a constructor would allow its shape.
-/
namespace MatrixLisp

namespace Matrix

/-- Rows, columns and entries are within the limit for checked shapes. -/
structure Bounded (m : Matrix) : Prop where
  rows_le : m.rows ≤ maxSize
  cols_le : m.cols ≤ maxSize
  size_le : m.data.size ≤ maxSize

theorem checkShape_eq_ok_iff {rows cols : ℕ} :
    checkShape rows cols = .ok () ↔ rows * cols ≤ maxSize ∧ rows ≤ maxSize ∧ cols ≤ maxSize := by
  unfold checkShape
  split_ifs with h
  · exact iff_of_true rfl h
  · exact iff_of_false nofun h

/-- The bounds are what the constructors check of a shape. -/
theorem WellFormed.bounded_iff {m : Matrix} (h : m.WellFormed) :
    m.Bounded ↔ checkShape m.rows m.cols = .ok () := by
  rw [checkShape_eq_ok_iff, ← h]
  exact ⟨fun hm => ⟨hm.size_le, hm.rows_le, hm.cols_le⟩, fun hm => ⟨hm.2.1, hm.2.2, hm.1⟩⟩

/-- Of two matrices of one shape, both are bounded or neither. -/
theorem WellFormed.bounded_of_shape_eq {m m' : Matrix} (h : m.WellFormed) (h' : m'.WellFormed)
    (hshape : m'.shape = m.shape) (hm : m.Bounded) : m'.Bounded := by
  obtain ⟨hrows, hcols⟩ := Prod.mk.inj hshape
  rw [h'.bounded_iff, hrows, hcols]
  exact h.bounded_iff.mp hm

theorem WellFormed.bounded_transpose {m : Matrix} (h : m.WellFormed) (hm : m.Bounded) :
    m.transpose.Bounded := by
  have hsize : m.transpose.data.size = m.data.size :=
    calc
      m.transpose.data.size = m.cols * m.rows := wellFormed_build ..
      _ = m.rows * m.cols := Nat.mul_comm ..
      _ = m.data.size := h.symm
  exact ⟨hm.cols_le, hm.rows_le, hsize ▸ hm.size_le⟩

theorem zipWith_gives_shape (op : Arith) (a b : Matrix) :
    Gives (fun c => c.shape = a.shape) (zipWith op a b) := by
  unfold zipWith
  split_ifs
  · exact (op.zipFloats_gives ..).map fun _ _ => rfl
  · exact nofun

theorem broadcast_gives_shape (op : Arith) (a : Matrix) (y : Float) :
    Gives (fun c => c.shape = a.shape) (broadcast op a y) :=
  (op.broadcastFloats_gives a.data y).map fun _ _ => rfl

theorem dot_gives_shape (a b : Matrix) :
    Gives (fun c => c.shape = (a.rows, b.cols)) (dot a b) := by
  unfold dot
  split_ifs
  · rfl
  · exact nofun

/-- From bounded operands, transposes and operations on the entries give bounded matrices. The sides
of a product are bounded as well; the product is bounded exactly if its shape has not too many
entries. -/
theorem bounded_of_derived {a b : Matrix} (ha : a.WellFormed) (hb : b.WellFormed)
    (haBounded : a.Bounded) (hbBounded : b.Bounded) :
    a.transpose.Bounded ∧
      (∀ (op : Arith) (c : Matrix), zipWith op a b = .ok c → c.Bounded) ∧
      (∀ (op : Arith) (y : Float) (c : Matrix), broadcast op a y = .ok c → c.Bounded) ∧
      ∀ c : Matrix, dot a b = .ok c → c.rows ≤ maxSize ∧ c.cols ≤ maxSize ∧
        (c.Bounded ↔ a.rows * b.cols ≤ maxSize) := by
  refine ⟨ha.bounded_transpose haBounded, fun op c h => ?_, fun op y c h => ?_, fun c h => ?_⟩
  · have hc : c.WellFormed := (zipWith_gives op a b).of_eq_ok h ha hb
    exact ha.bounded_of_shape_eq hc ((zipWith_gives_shape op a b).of_eq_ok h) haBounded
  · have hc : c.WellFormed := (broadcast_gives op a y).of_eq_ok h ha
    exact ha.bounded_of_shape_eq hc ((broadcast_gives_shape op a y).of_eq_ok h) haBounded
  · have hc : c.WellFormed := (dot_gives a b).of_eq_ok h
    obtain ⟨hrows, hcols⟩ := Prod.mk.inj ((dot_gives_shape a b).of_eq_ok h)
    rw [hc.bounded_iff, checkShape_eq_ok_iff, hrows, hcols]
    exact ⟨haBounded.rows_le, hbBounded.cols_le,
      ⟨fun h => h.1, fun h => ⟨h, haBounded.rows_le, hbBounded.cols_le⟩⟩⟩

/-- A column of three entries and a row of two. -/
theorem bounded_of_derived_thin :
    (build 3 1 fun _ _ => 1.0).transpose.Bounded ∧
      ∃ c, dot (build 3 1 fun _ _ => 1.0) (build 1 2 fun _ _ => 2.0) = .ok c ∧ c.Bounded := by
  have hcolumn : (build 3 1 fun _ _ => 1.0).Bounded :=
    (wellFormed_build ..).bounded_iff.mpr (checkShape_eq_ok_iff.mpr (by decide))
  have hrow : (build 1 2 fun _ _ => 2.0).Bounded :=
    (wellFormed_build ..).bounded_iff.mpr (checkShape_eq_ok_iff.mpr (by decide))
  obtain ⟨htranspose, -, -, hdot⟩ :=
    bounded_of_derived (wellFormed_build ..) (wellFormed_build ..) hcolumn hrow
  obtain ⟨-, -, hproduct⟩ := hdot _ rfl
  exact ⟨htranspose, _, rfl, hproduct.mpr (by decide)⟩

/-- Two matrices without entries have a product with more entries than a constructor allows. -/
theorem dot_not_bounded :
    (Matrix.WellFormed ⟨4097, 0, #[]⟩ ∧ Bounded ⟨4097, 0, #[]⟩) ∧
      (Matrix.WellFormed ⟨0, 4097, #[]⟩ ∧ Bounded ⟨0, 4097, #[]⟩) ∧
      ∃ c, dot ⟨4097, 0, #[]⟩ ⟨0, 4097, #[]⟩ = .ok c ∧ ¬ c.Bounded := by
  refine ⟨⟨rfl, by decide, by decide, by decide⟩, ⟨rfl, by decide, by decide, by decide⟩,
    _, if_pos rfl, ?_⟩
  rw [(wellFormed_build ..).bounded_iff, checkShape_eq_ok_iff]
  decide

end Matrix

end MatrixLisp
