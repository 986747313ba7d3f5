import Mathlib
import MatrixLisp.Proofs.Linear.Access

/-!
# Products

An entry of a product is the inner product of a row of one operand and a row of the transpose of the
other: both sums have the same terms in the same order and start from the same value, so that nothing is
needed of the addition of floats. Exchanging the factors of each term, which changes no product of
floats, gives the entries of the product of the transposes the other way round.
-/
namespace MatrixLisp

/-! ## Products of floats -/

namespace Multiplication

open Float.Model (Format UnpackedFloat)
open Float.Model.UnpackedFloat (Sign)

theorem sign_mul_comm (s s' : Sign) : s * s' = s' * s := by
  cases s <;> cases s' <;> rfl

theorem mul_comm (spec : Format) (u v : UnpackedFloat) :
    UnpackedFloat.mul spec u v = UnpackedFloat.mul spec v u := by
  cases u with
  | notANumber => cases v <;> rfl
  | infinity s =>
    cases v with
    | infinity s' => exact congrArg UnpackedFloat.infinity (sign_mul_comm s s')
    | finite s' m e hm => exact congrArg UnpackedFloat.infinity (sign_mul_comm s s')
    | _ => rfl
  | zero s =>
    cases v with
    | zero s' => exact congrArg UnpackedFloat.zero (sign_mul_comm s s')
    | finite s' m e hm => exact congrArg UnpackedFloat.zero (sign_mul_comm s s')
    | _ => rfl
  | finite s m e hm =>
    cases v with
    | notANumber => rfl
    | infinity s' => exact congrArg UnpackedFloat.infinity (sign_mul_comm s s')
    | zero s' => exact congrArg UnpackedFloat.zero (sign_mul_comm s s')
    | finite s' m' e' hm' =>
      rw [UnpackedFloat.mul, UnpackedFloat.mul, sign_mul_comm s s', Nat.mul_comm m m',
        Int.add_comm e e']

end Multiplication

/-- The factors of a product of floats may be exchanged, whatever they are. -/
theorem float_mul_comm (x y : Float) : x * y = y * x :=
  congrArg (Float.ofModel ∘ Float.Model.pack) (Multiplication.mul_comm .binary64 _ _)

namespace Matrix

open IndexType (unbounded)

variable {a b m : Matrix} {rows cols i j : ℕ}

/-! ## Transposes of products -/

theorem dot_of_eq (h : a.cols = b.rows) :
    dot a b = .ok (build a.rows b.cols fun i j =>
      sumFloats ((List.range a.cols).map fun k => a.entry i k * b.entry k j)) :=
  if_pos h

theorem dot_of_ne (h : a.cols ≠ b.rows) : dot a b = .error (.matrixProduct a.shape b.shape) :=
  if_neg h

/-- A product fails exactly if the inner dimensions differ. -/
theorem dot_fails_iff : (∃ f, dot a b = .error f) ↔ a.cols ≠ b.rows := by
  constructor
  · rintro ⟨f, hf⟩ h
    rw [dot_of_eq h] at hf
    cases hf
  · exact fun h => ⟨_, dot_of_ne h⟩

theorem dot_transpose_of_eq (h : a.cols = b.rows) :
    dot b.transpose a.transpose = (dot a b).map transpose := by
  rw [dot_of_eq h, dot_of_eq (show b.transpose.cols = a.transpose.rows from h.symm)]
  refine congrArg Except.ok (build_congr fun j hj i hi => ?_)
  have hi : i < a.rows := hi
  have hj : j < b.cols := hj
  rw [entry_build hi hj]
  refine congrArg sumFloats ?_
  show (List.range b.rows).map _ = (List.range a.cols).map _
  rw [h]
  refine List.map_congr_left fun k hk => ?_
  have hk : k < b.rows := List.mem_range.mp hk
  rw [entry_transpose hj hk, entry_transpose (h ▸ hk) hi, float_mul_comm]

/-- Transposing reverses products: a matrix transposed twice is the matrix itself, a transpose has its
entries with row and column exchanged, and the product of the transposes the other way round exists
exactly if the product does, which is if the inner dimensions agree, and is its transpose, to the last
bit of each entry. -/
theorem transpose_reverses_dot (ha : a.WellFormed) (b : Matrix) :
    a.transpose.transpose = a ∧ (∀ i j, a.transpose.get? i j = a.get? j i) ∧
    ((∃ f, dot a b = .error f) ↔ a.cols ≠ b.rows) ∧
    ((∃ f, dot a b = .error f) ↔ ∃ f, dot b.transpose a.transpose = .error f) ∧
    ∀ c, dot a b = .ok c → dot b.transpose a.transpose = .ok c.transpose := by
  refine ⟨ha.transpose_transpose, ha.get?_transpose, dot_fails_iff, ?_, fun c hc => ?_⟩
  · rw [dot_fails_iff, dot_fails_iff]
    exact not_congr eq_comm
  · by_cases h : a.cols = b.rows
    · rw [dot_transpose_of_eq h, hc]
      rfl
    · rw [dot_of_ne h] at hc
      cases hc

/-- A row of two entries and a matrix of two rows: a swapped stride would show. -/
theorem transpose_reverses_dot_thin :
    (Matrix.mk 1 2 #[1.0, 2.0]).WellFormed ∧
    (Matrix.mk 1 2 #[1.0, 2.0]).transpose.transpose = ⟨1, 2, #[1.0, 2.0]⟩ ∧
    ∃ c, dot (Matrix.mk 2 3 #[1.0, 2.0, 3.0, 4.0, 5.0, 6.0]).transpose
        (Matrix.mk 1 2 #[1.0, 2.0]).transpose = .ok c ∧
      c.shape = (3, 1) ∧ c.get? 0 0 = some 9.0 ∧ c.get? 1 0 = some 12.0 ∧ c.get? 2 0 = some 15.0 := by
  have ha : (Matrix.mk 1 2 #[1.0, 2.0]).WellFormed := rfl
  obtain ⟨htwice, -, -, -, hdot⟩ :=
    transpose_reverses_dot ha ⟨2, 3, #[1.0, 2.0, 3.0, 4.0, 5.0, 6.0]⟩
  exact ⟨ha, htwice, _, hdot ⟨1, 3, #[9.0, 12.0, 15.0]⟩ (by rfl), rfl, rfl, rfl, rfl⟩

/-! ## Products by rows -/

/-- Two rows with the same number of entries have an inner product, the sum of the products of the
entries at equal positions. -/
theorem rows_dot (f g : ℕ → Float) (n : ℕ) :
    NumVector.dot ⟨((List.range n).map f).toArray⟩ ⟨((List.range n).map g).toArray⟩ =
      .ok (sumFloats ((List.range n).map fun k => f k * g k)) := by
  rw [NumVector.dot, if_pos (by simp [NumVector.size]), List.zipWith_map, List.zipWith_self]

end Matrix

end MatrixLisp
