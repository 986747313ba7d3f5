import Mathlib.Tactic
import MatrixLisp.Proofs.Collect
import MatrixLisp.Proofs.Linear.Bounds
import MatrixLisp.Proofs.Linear.Entries

/-!
# Arithmetic on the elements

An operator on two vectors or two matrices of one shape works position by position. Only a division can
fail, and it does at the first position whose divisor counts as zero, where the positions of a matrix
come row by row. A number in place of the second operand gives what an operand of the same shape gives
whose elements are all this number.
-/
namespace MatrixLisp

variable {op : Arith} {x y : Float}

namespace Arith

/-- A divisor that counts as zero. -/
def Refuses (op : Arith) (y : Float) : Prop := op = .div ∧ y.abs ≤ tolerance

theorem applyFloat_of_refuses (h : op.Refuses y) (x : Float) :
    op.applyFloat x y = .error (.floatDivision x y) := by
  obtain ⟨rfl, hy⟩ := h
  exact if_pos hy

theorem exists_applyFloat_of_not_refuses (h : ¬op.Refuses y) (x : Float) :
    ∃ z, op.applyFloat x y = .ok z := by
  cases op with
  | div => exact ⟨x / y, if_neg fun hy => h ⟨rfl, hy⟩⟩
  | _ => exact ⟨_, rfl⟩

theorem applyFloat_eq_error_iff {f : Fault} :
    op.applyFloat x y = .error f ↔ op.Refuses y ∧ f = .floatDivision x y := by
  by_cases h : op.Refuses y
  · rw [applyFloat_of_refuses h, Except.error.injEq, eq_comm, and_iff_right h]
  · obtain ⟨z, hz⟩ := exists_applyFloat_of_not_refuses h x
    exact iff_of_false (by simp [hz]) fun hf => h hf.1

end Arith

/-- A result is the operator applied position by position. There is a result exactly if the operator
refuses none of the second operand's elements; the fault is that of the first one it refuses. -/
structure IsElementwise {ι : Type} (before : ι → ι → Prop) (op : Arith) (a b : ι → Option Float)
    (result : Except Fault (ι → Option Float)) : Prop where
  element : ∀ c, result = .ok c → ∀ p, (c p).map Except.ok = Option.map₂ op.applyFloat (a p) (b p)
  fails_iff : (∃ f, result = .error f) ↔ ∃ p y, b p = some y ∧ op.Refuses y
  first : ∀ f, result = .error f → ∃ p x y, a p = some x ∧ b p = some y ∧ op.Refuses y ∧
    f = .floatDivision x y ∧ ∀ q z, before q p → b q = some z → ¬op.Refuses z

/-- Positions may be named otherwise, if every one has a name and the names keep the order. -/
theorem IsElementwise.reindex {ι κ : Type} {before : ι → ι → Prop} {before' : κ → κ → Prop}
    {a b : ι → Option Float} {result : Except Fault (ι → Option Float)}
    (h : IsElementwise before op a b result) {place : κ → Option ι}
    (hplace : ∀ i y, b i = some y → ∃ p, place p = some i)
    (horder : ∀ q p j i, place q = some j → place p = some i → before' q p → before j i) :
    IsElementwise before' op (fun p => (place p).bind a) (fun p => (place p).bind b)
      (result.map fun c p => (place p).bind c) where
  element := by
    intro c hc p
    cases result with
    | error f => cases hc
    | ok c =>
      cases hc
      dsimp only
      cases place p with
      | none => rfl
      | some i => exact h.element _ rfl i
  fails_iff := by
    rw [Collect.exists_map_eq_error_iff, h.fails_iff]
    constructor
    · rintro ⟨i, y, hy, hrefuses⟩
      obtain ⟨p, hp⟩ := hplace i y hy
      exact ⟨p, y, by simp [hp, hy], hrefuses⟩
    · rintro ⟨p, y, hy, hrefuses⟩
      obtain ⟨i, -, hi⟩ := Option.bind_eq_some_iff.mp hy
      exact ⟨i, y, hi, hrefuses⟩
  first := by
    intro f hf
    cases result with
    | ok c => cases hf
    | error f =>
      cases hf
      obtain ⟨i, x, y, hx, hy, hrefuses, hfault, hfirst⟩ := h.first _ rfl
      obtain ⟨p, hp⟩ := hplace i y hy
      refine ⟨p, x, y, by simp [hp, hx], by simp [hp, hy], hrefuses, hfault, fun q z hq hz => ?_⟩
      obtain ⟨j, hj, hz⟩ := Option.bind_eq_some_iff.mp hz
      exact hfirst j z (horder q p j i hj hp hq) hz

/-! ## Buffers -/

section Buffers

variable {xs ys : Array Float}

theorem getElem?_zipWith_toList (op : Arith) (xs ys : Array Float) (p : ℕ) :
    (List.zipWith op.applyFloat xs.toList ys.toList)[p]? =
      Option.map₂ op.applyFloat xs[p]? ys[p]? := by
  rw [List.getElem?_zipWith, Array.getElem?_toList, Array.getElem?_toList]
  cases xs[p]? <;> cases ys[p]? <;> rfl

/-- Of two buffers of one size, the first has an element wherever the second has one. -/
theorem exists_getElem?_of_size_eq (h : xs.size = ys.size) {p : ℕ} (hy : ys[p]? = some y) :
    ∃ x, xs[p]? = some x := by
  obtain ⟨hp, -⟩ := Array.getElem?_eq_some_iff.mp hy
  exact ⟨xs[p], Array.getElem?_eq_getElem (h ▸ hp)⟩

theorem Arith.zipFloats_isElementwise (h : xs.size = ys.size) :
    IsElementwise (· < ·) op (fun p : ℕ => xs[p]?) (fun p : ℕ => ys[p]?)
      ((op.zipFloats xs ys).map fun data (p : ℕ) => data[p]?) := by
  unfold Arith.zipFloats
  have hget := getElem?_zipWith_toList op xs ys
  generalize List.zipWith op.applyFloat xs.toList ys.toList = results at hget
  cases hresults : results.mapM id with
  | ok zs =>
    have helement : ∀ p : ℕ, (zs[p]?).map Except.ok = Option.map₂ op.applyFloat xs[p]? ys[p]? := by
      intro p
      rw [← hget, ← List.getElem?_map, ← Collect.mapM_eq_ok_iff.mp hresults, List.map_id]
    refine ⟨fun c hc p => ?_, iff_of_false ?_ ?_, fun f hf => ?_⟩
    · cases hc
      simpa using helement p
    · rintro ⟨f, hf⟩
      cases hf
    · rintro ⟨p, y, hy, hrefuses⟩
      obtain ⟨x, hx⟩ := exists_getElem?_of_size_eq h hy
      have hp := helement p
      rw [hx, hy, Option.map₂_some_some, Arith.applyFloat_of_refuses hrefuses] at hp
      obtain ⟨z, -, hz⟩ := Option.map_eq_some_iff.mp hp
      cases hz
    · cases hf
  | error f =>
    obtain ⟨p, r, hr, hfail, hfront⟩ := Collect.mapM_eq_error_iff.mp hresults
    rw [hget, Option.map₂_eq_some_iff] at hr
    obtain ⟨x, y, hx, hy, rfl⟩ := hr
    obtain ⟨hrefuses, rfl⟩ := Arith.applyFloat_eq_error_iff.mp hfail
    refine ⟨fun c hc => ?_, iff_of_true ⟨_, rfl⟩ ⟨p, y, hy, hrefuses⟩, fun f hf => ?_⟩
    · cases hc
    · cases hf
      refine ⟨p, x, y, hx, hy, hrefuses, rfl, fun q z hq hz hrefuses' => ?_⟩
      obtain ⟨w, hw⟩ := exists_getElem?_of_size_eq h hz
      have hwz : results[q]? = some (op.applyFloat w z) := by
        rw [hget, hw, hz, Option.map₂_some_some]
      obtain ⟨v, hv⟩ := hfront q hq _ hwz
      rw [id, Arith.applyFloat_of_refuses hrefuses'] at hv
      cases hv

/-- One right operand is as good as a buffer full of it. -/
theorem Arith.broadcastFloats_eq_zipFloats (h : ys.size = xs.size) (hy : ∀ z ∈ ys, z = y) :
    op.broadcastFloats xs y = op.zipFloats xs ys := by
  have hys : ys.toList = List.replicate xs.toList.length y :=
    List.eq_replicate_iff.mpr ⟨by simpa using h, fun z hz => hy z (Array.mem_toList_iff.mp hz)⟩
  have hzip : List.zipWith op.applyFloat xs.toList ys.toList =
      xs.toList.map fun x => op.applyFloat x y := by
    rw [hys, ← List.map_const', List.zipWith_map_right, List.zipWith_self]
  rw [Arith.broadcastFloats, Arith.zipFloats, hzip, List.mapM_map]
  rfl

end Buffers

/-! ## Vectors and matrices -/

namespace NumVector

variable {v w : NumVector}

theorem size_of_zipWith_eq_ok {u : NumVector} (h : v.size = w.size)
    (hu : v.zipWith op w = .ok u) : u.size = v.size := by
  have hgives : Gives (fun u => u.size = v.size) (v.zipWith op w) := by
    rw [zipWith, if_pos h]
    exact (op.zipFloats_gives v.data w.data).map fun data hdata => hdata h
  exact hgives.of_eq_ok hu

theorem broadcast_eq_zipWith (h : w.size = v.size) (hw : ∀ y ∈ w.data, y = x) :
    v.broadcast op x = v.zipWith op w := by
  rw [broadcast, zipWith, if_pos h.symm, Arith.broadcastFloats_eq_zipFloats h hw]

theorem zipWith_isElementwise (h : v.size = w.size) :
    IsElementwise (· < ·) op v.get? w.get? ((v.zipWith op w).map NumVector.get?) := by
  rw [zipWith, if_pos h, Collect.map_map]
  exact op.zipFloats_isElementwise h

end NumVector

namespace Matrix

variable {a b m : Matrix} {i j : ℕ}

/-- The position in a buffer of a row and a column, if both exist. -/
def index? (rows cols : ℕ) (p : ℕ × ℕ) : Option ℕ :=
  if p.1 < rows ∧ p.2 < cols then some (p.1 * cols + p.2) else none

theorem index?_eq_some_iff {rows cols k : ℕ} {p : ℕ × ℕ} :
    index? rows cols p = some k ↔ p.1 < rows ∧ p.2 < cols ∧ p.1 * cols + p.2 = k := by
  rw [index?, Option.ite_none_right_eq_some, Option.some.injEq, and_assoc]

theorem uncurry_get? (m : Matrix) :
    Function.uncurry m.get? = fun p => (index? m.rows m.cols p).bind fun k => m.data[k]? := by
  funext p
  rw [Function.uncurry, get?, index?]
  split_ifs <;> rfl

/-- Positions row by row come in the order of the buffer. -/
theorem index_lt_index {cols i j i' j' : ℕ} (hj : j' < cols)
    (h : Prod.Lex (· < ·) (· < ·) (i', j') (i, j)) : i' * cols + j' < i * cols + j := by
  rcases Prod.lex_def.mp h with hi | ⟨rfl, hlt⟩
  · have hrow : (i' + 1) * cols ≤ i * cols := Nat.mul_le_mul_right cols hi
    have hwidth : (i' + 1) * cols = i' * cols + cols := Nat.succ_mul i' cols
    omega
  · exact Nat.add_lt_add_left hlt _

theorem size_eq_of_shape_eq (ha : a.WellFormed) (hb : b.WellFormed) (h : a.shape = b.shape) :
    a.data.size = b.data.size := by
  obtain ⟨hrows, hcols⟩ := Prod.mk.inj h
  rw [ha, hb, hrows, hcols]

theorem broadcast_eq_zipWith (ha : a.WellFormed) (hb : b.WellFormed) (h : a.shape = b.shape)
    (hx : ∀ y ∈ b.data, y = x) : a.broadcast op x = a.zipWith op b := by
  rw [broadcast, zipWith, if_pos h,
    Arith.broadcastFloats_eq_zipFloats (size_eq_of_shape_eq ha hb h).symm hx]

theorem zipWith_isElementwise (ha : a.WellFormed) (hb : b.WellFormed) (h : a.shape = b.shape) :
    IsElementwise (Prod.Lex (· < ·) (· < ·)) op (Function.uncurry a.get?) (Function.uncurry b.get?)
      ((a.zipWith op b).map fun c => Function.uncurry c.get?) := by
  obtain ⟨hrows, hcols⟩ := Prod.mk.inj h
  have hplace : ∀ k y, b.data[k]? = some y → ∃ p, index? a.rows a.cols p = some k := by
    intro k y hy
    obtain ⟨hk, -⟩ := Array.getElem?_eq_some_iff.mp hy
    obtain ⟨i, hi, j, hj, rfl⟩ := hb.exists_index hk
    exact ⟨(i, j), index?_eq_some_iff.mpr ⟨hrows ▸ hi, hcols ▸ hj, by rw [hcols]⟩⟩
  have horder : ∀ q p k' k, index? a.rows a.cols q = some k' → index? a.rows a.cols p = some k →
      Prod.Lex (· < ·) (· < ·) q p → k' < k := by
    intro q p k' k hq hp hlex
    obtain ⟨-, hj', rfl⟩ := index?_eq_some_iff.mp hq
    obtain ⟨-, -, rfl⟩ := index?_eq_some_iff.mp hp
    exact index_lt_index hj' hlex
  have hmatrix := (op.zipFloats_isElementwise (size_eq_of_shape_eq ha hb h)).reindex hplace horder
  rw [Collect.map_map] at hmatrix
  simp only [uncurry_get?, ← hrows, ← hcols]
  rw [zipWith, if_pos h, Collect.map_map]
  exact hmatrix

end Matrix

/-- Arithmetic with a number is arithmetic with a vector or matrix of the same shape whose elements are
all this number: both have the same result or the same fault. On equal shapes the result has the shape
of the operands and the operator's value at every position. There is none exactly if a divisor counts
as zero, and then the fault is that of the first such position, row by row. -/
theorem Arith.broadcast_elementwise (op : Arith) :
    (∀ (v c : NumVector) (x : Float), v.size = c.size → (∀ y ∈ c.data, y = x) →
      v.broadcast op x = v.zipWith op c) ∧
    (∀ (a c : Matrix) (x : Float), a.WellFormed → c.WellFormed → a.shape = c.shape →
      (∀ y ∈ c.data, y = x) → a.broadcast op x = a.zipWith op c) ∧
    (∀ v w : NumVector, v.size = w.size →
      (∀ u, v.zipWith op w = .ok u → u.size = v.size) ∧
      IsElementwise (· < ·) op v.get? w.get? ((v.zipWith op w).map NumVector.get?)) ∧
    ∀ a b : Matrix, a.WellFormed → b.WellFormed → a.shape = b.shape →
      (∀ c, a.zipWith op b = .ok c → c.WellFormed ∧ c.shape = a.shape) ∧
      IsElementwise (Prod.Lex (· < ·) (· < ·)) op (Function.uncurry a.get?)
        (Function.uncurry b.get?) ((a.zipWith op b).map fun c => Function.uncurry c.get?) := by
  refine ⟨fun v c x h hx => NumVector.broadcast_eq_zipWith h.symm hx,
    fun a c x ha hc h hx => Matrix.broadcast_eq_zipWith ha hc h hx, fun v w h => ?_,
    fun a b ha hb h => ?_⟩
  · exact ⟨fun u hu => NumVector.size_of_zipWith_eq_ok h hu, NumVector.zipWith_isElementwise h⟩
  · refine ⟨fun c hc => ⟨?_, ?_⟩, Matrix.zipWith_isElementwise ha hb h⟩
    · exact (Matrix.zipWith_gives op a b).of_eq_ok hc ha hb
    · exact (Matrix.zipWith_gives_shape op a b).of_eq_ok hc

/-- Division of a column by a column, whose second divisor counts as zero, and by a number. -/
theorem Arith.broadcast_elementwise_column :
    (∃ f, Matrix.zipWith .div ⟨2, 1, #[1.0, 2.0]⟩ ⟨2, 1, #[4.0, 0.0]⟩ = .error f) ∧
    Matrix.broadcast .div ⟨2, 1, #[1.0, 2.0]⟩ 4.0 =
      Matrix.zipWith .div ⟨2, 1, #[1.0, 2.0]⟩ ⟨2, 1, #[4.0, 4.0]⟩ := by
  obtain ⟨-, hnumber, -, hcolumn⟩ := broadcast_elementwise .div
  constructor
  · have hfails := (hcolumn ⟨2, 1, #[1.0, 2.0]⟩ ⟨2, 1, #[4.0, 0.0]⟩ rfl rfl (by decide)).2.fails_iff
    exact Collect.exists_map_eq_error_iff.mp (hfails.mpr ⟨(1, 0), 0.0, rfl, rfl, by decide⟩)
  · exact hnumber _ ⟨2, 1, #[4.0, 4.0]⟩ 4.0 rfl rfl (by decide) (by simp)

end MatrixLisp
