import Mathlib.Tactic
import MatrixLisp.Linear.Matrix

/-!
# Matrices by their entries

A well-formed matrix is told by its shape and by the entries in its rows and columns: every position in
the buffer belongs to one row and one column, also if there are none. What is built from a function has
the values of the function as its entries, a transpose has those of the matrix with row and column
exchanged, and a row is the list of its entries.
-/
namespace MatrixLisp.Matrix

variable {m m' : Matrix} {rows cols i j : ℕ} {f g : ℕ → ℕ → Float}

/-- The buffer has a position for every row and column. -/
theorem WellFormed.index_lt (h : m.WellFormed) (hi : i < m.rows) (hj : j < m.cols) :
    i * m.cols + j < m.data.size :=
  h ▸ Matrix.index_lt hi hj

theorem WellFormed.getElem?_eq (h : m.WellFormed) (hi : i < m.rows) (hj : j < m.cols) :
    m.data[i * m.cols + j]? = some (m.entry i j) := by
  have hlt := h.index_lt hi hj
  rw [Array.getElem?_eq_getElem hlt, entry, Array.getD, dif_pos hlt]
  rfl

/-- Every position in the buffer belongs to a row and a column. -/
theorem WellFormed.exists_index (h : m.WellFormed) {p : ℕ} (hp : p < m.data.size) :
    ∃ i < m.rows, ∃ j < m.cols, p = i * m.cols + j := by
  rw [h] at hp
  have hcols : 0 < m.cols := Nat.pos_of_mul_pos_left (Nat.zero_lt_of_lt hp)
  exact ⟨p / m.cols, Nat.div_lt_of_lt_mul (Nat.mul_comm .. ▸ hp), p % m.cols, Nat.mod_lt _ hcols,
    (Nat.div_add_mod' ..).symm⟩

theorem WellFormed.get?_eq (h : m.WellFormed) (i j : ℕ) :
    m.get? i j = if i < m.rows ∧ j < m.cols then some (m.entry i j) else none := by
  unfold get?
  split_ifs with hij
  · exact h.getElem?_eq hij.1 hij.2
  · rfl

theorem entry_build (hi : i < rows) (hj : j < cols) : (build rows cols f).entry i j = f i j := by
  have hij : i < rows ∧ j < cols := ⟨hi, hj⟩
  have hget := (wellFormed_build rows cols f).get?_eq i j
  rw [get?_build, if_pos hij] at hget
  exact (Option.some.inj (hget.trans (if_pos hij))).symm

/-- A matrix is built again from its entries. -/
theorem WellFormed.eq_build (h : m.WellFormed) : m = build m.rows m.cols m.entry := by
  obtain ⟨rows, cols, data⟩ := m
  have hsize : data.size = rows * cols := h
  refine congrArg (Matrix.mk rows cols) (Array.ext (by simp [hsize]) fun k hk _ => ?_)
  rw [Array.getElem_ofFn, entry, Nat.div_add_mod', Array.getD, dif_pos hk]
  rfl

/-- Only the values for rows and columns that exist matter. -/
theorem build_congr (h : ∀ i < rows, ∀ j < cols, f i j = g i j) :
    build rows cols f = build rows cols g := by
  refine congrArg (Matrix.mk rows cols) (congrArg Array.ofFn (funext fun k => ?_))
  have hcols : 0 < cols := Nat.pos_of_mul_pos_left (Nat.zero_lt_of_lt k.isLt)
  exact h _ (Nat.div_lt_of_lt_mul (Nat.mul_comm rows cols ▸ k.isLt)) _ (Nat.mod_lt _ hcols)

/-- A matrix is told by its shape and its entries. -/
theorem WellFormed.ext_get? (h : m.WellFormed) (h' : m'.WellFormed) (hshape : m.shape = m'.shape)
    (hget : ∀ i j, m.get? i j = m'.get? i j) : m = m' := by
  obtain ⟨hrows, hcols⟩ := Prod.mk.inj hshape
  rw [h.eq_build, h'.eq_build, hrows, hcols]
  refine build_congr fun i hi j hj => ?_
  have hij := hget i j
  rw [h.get?_eq, h'.get?_eq, if_pos ⟨hrows ▸ hi, hcols ▸ hj⟩, if_pos ⟨hi, hj⟩] at hij
  exact Option.some.inj hij

theorem map_range_eq_ofFn {α : Type} (n : ℕ) (g : ℕ → α) :
    (List.range n).map g = List.ofFn fun i : Fin n => g i := by
  rw [List.ofFn_eq_pmap, List.pmap_eq_map]

/-- The buffer holds the rows one after the other, each from its first column to its last one. -/
theorem build_eq_flatten (rows cols : ℕ) (f : ℕ → ℕ → Float) :
    build rows cols f =
      ⟨rows, cols, ((List.range rows).map fun i => (List.range cols).map (f i)).flatten.toArray⟩ := by
  refine congrArg (Matrix.mk rows cols) (Array.toList_inj.mp ?_)
  rw [Array.toList_ofFn, List.ofFn_mul, map_range_eq_ofFn]
  refine congrArg List.flatten (congrArg List.ofFn (funext fun i => ?_))
  rw [map_range_eq_ofFn]
  refine congrArg List.ofFn (funext fun j => ?_)
  obtain ⟨hdiv, hmod⟩ := index_div_mod i.val j.isLt
  dsimp only
  rw [hdiv, hmod]

/-! ## Transposes -/

theorem entry_transpose (hi : i < m.cols) (hj : j < m.rows) : m.transpose.entry i j = m.entry j i :=
  entry_build hi hj

theorem WellFormed.get?_transpose (h : m.WellFormed) (i j : ℕ) :
    m.transpose.get? i j = m.get? j i := by
  rw [transpose, get?_build, h.get?_eq]
  exact if_congr and_comm rfl rfl

theorem WellFormed.transpose_transpose (h : m.WellFormed) : m.transpose.transpose = m :=
  calc
    m.transpose.transpose = build m.rows m.cols m.entry :=
      build_congr fun _ hi _ hj => entry_transpose hj hi
    _ = m := h.eq_build.symm

/-! ## Rows -/

theorem WellFormed.row_eq (h : m.WellFormed) (hi : i < m.rows) :
    m.row i = (List.range m.cols).map (m.entry i) := by
  have hend : (i + 1) * m.cols ≤ m.data.size := by
    rw [h]
    exact Nat.mul_le_mul_right m.cols hi
  have hwidth : (i + 1) * m.cols = i * m.cols + m.cols := Nat.succ_mul i m.cols
  refine List.ext_getElem (by simp [row]; omega) fun j hj _ => ?_
  have hj : j < m.cols := by
    simp [row] at hj
    omega
  have hentry := h.getElem?_eq hi hj
  rw [Array.getElem?_eq_getElem (h.index_lt hi hj)] at hentry
  simpa [row] using Option.some.inj hentry

theorem WellFormed.getElem?_row (h : m.WellFormed) (hi : i < m.rows) (j : ℕ) :
    (m.row i)[j]? = m.get? i j := by
  rw [h.row_eq hi, h.get?_eq, List.getElem?_map]
  by_cases hj : j < m.cols
  · rw [List.getElem?_range hj, if_pos ⟨hi, hj⟩]
    rfl
  · rw [List.getElem?_eq_none (by simpa using hj), if_neg fun hij => hj hij.2]
    rfl

end MatrixLisp.Matrix
