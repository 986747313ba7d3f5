import Mathlib.Tactic
import MatrixLisp.Proofs.Eval.Invariant
import MatrixLisp.Proofs.Value.WellFormed
import MatrixLisp.Value.Operator

/-!
# What the operators give

Arithmetic brings every fraction to lowest terms, whatever its operands are. Matrices are built with
as many entries as their shape says, and operations on the entries keep the shape. So the operators
give well-formed values for well-formed operands; their faults are never those of a parameter.
-/
namespace MatrixLisp

namespace Rational

theorem ofFraction_gives (numer denom : ℤ) : Gives WellFormed (ofFraction numer denom) := by
  cases h : ofFraction numer denom with
  | ok q => exact wellFormed_of_ofFraction h
  | error f =>
    unfold ofFraction at h
    dsimp only at h
    split_ifs at h
    · cases h
      exact nofun
    · split at h
      · cases h
      · cases h
        exact nofun

theorem apply_gives (op : Arith) (p q : Rational) : Gives WellFormed (apply op p q) := by
  cases op with
  | add => exact ofFraction_gives ..
  | sub => exact ofFraction_gives ..
  | mul => exact ofFraction_gives ..
  | div =>
    show Gives WellFormed (div p q)
    unfold div
    split_ifs
    · exact nofun
    · exact ofFraction_gives ..

end Rational

theorem Arith.applyFloat_gives (op : Arith) (x y : Float) :
    Gives (fun _ => True) (op.applyFloat x y) := by
  cases op with
  | div =>
    unfold applyFloat
    split_ifs
    · exact nofun
    · trivial
  | _ => trivial

namespace Number

theorem ofResult_gives (op : Arith) (a b : Int64) (n : ℤ) : Gives WellFormed (ofResult op a b n) := by
  unfold ofResult
  split
  · trivial
  · exact nofun

theorem applyInts_gives (op : Arith) (a b : Int64) : Gives WellFormed (applyInts op a b) := by
  cases op with
  | add => exact ofResult_gives ..
  | sub => exact ofResult_gives ..
  | mul => exact ofResult_gives ..
  | div =>
    unfold applyInts
    dsimp only
    split_ifs
    · exact nofun
    · exact (Rational.ofFraction_gives ..).map fun _ hq => hq

/-- Whatever the operands are, an arithmetic result is in lowest terms. -/
theorem apply_gives (op : Arith) (x y : Number) : Gives WellFormed (apply op x y) := by
  unfold apply
  split
  · exact applyInts_gives ..
  · split
    · exact (Rational.apply_gives ..).map fun _ hq => hq
    · exact (op.applyFloat_gives ..).map fun _ _ => trivial

end Number

namespace Arith

theorem zipFloats_gives (op : Arith) (xs ys : Array Float) :
    Gives (fun data => xs.size = ys.size → data.size = xs.size) (op.zipFloats xs ys) := by
  have hresults : ∀ r ∈ List.zipWith op.applyFloat xs.toList ys.toList,
      Gives (fun _ => True) (id r) := by
    intro r hr
    rw [← List.map_uncurry_zip_eq_zipWith] at hr
    obtain ⟨⟨x, y⟩, -, rfl⟩ := List.mem_map.mp hr
    exact op.applyFloat_gives x y
  apply (Outcome.mapM hresults).map
  intro data hdata hsize
  simpa [hsize] using hdata

theorem broadcastFloats_gives (op : Arith) (xs : Array Float) (y : Float) :
    Gives (fun data => data.size = xs.size) (op.broadcastFloats xs y) := by
  apply (Outcome.mapM fun x _ => op.applyFloat_gives x y).map
  intro data hdata
  simpa using hdata

end Arith

namespace NumVector

theorem zipWith_gives (op : Arith) (v w : NumVector) : Gives (fun _ => True) (zipWith op v w) := by
  unfold zipWith
  split_ifs
  · exact (op.zipFloats_gives ..).map fun _ _ => trivial
  · exact nofun

theorem broadcast_gives (op : Arith) (v : NumVector) (y : Float) :
    Gives (fun _ => True) (broadcast op v y) :=
  (op.broadcastFloats_gives v.data y).map fun _ _ => trivial

theorem dot_gives (v w : NumVector) : Gives (fun _ => True) (dot v w) := by
  unfold dot
  split_ifs
  · trivial
  · exact nofun

end NumVector

namespace Matrix

theorem checkShape_gives (rows cols : ℕ) : Gives (fun _ => True) (checkShape rows cols) := by
  unfold checkShape
  split_ifs
  · trivial
  · exact nofun

theorem ofFn_gives (rows cols : ℕ) (f : ℕ → ℕ → Float) : Gives WellFormed (ofFn rows cols f) :=
  (checkShape_gives rows cols).bind fun _ _ => wellFormed_build rows cols f

theorem zeros_gives (rows cols : ℕ) : Gives WellFormed (zeros rows cols) := by
  apply (checkShape_gives rows cols).bind
  intro _ _
  exact Array.size_replicate

theorem length_eq_of_find?_eq_none {rows : List (List Float)} {cols : ℕ}
    (h : (rows.zipIdx.find? fun (row, _) => row.length != cols) = none) :
    ∀ row ∈ rows, row.length = cols := by
  intro row hrow
  obtain ⟨i, hi, rfl⟩ := List.mem_iff_getElem.mp hrow
  have hmem : (rows[i], i) ∈ rows.zipIdx := List.mk_mem_zipIdx_iff_getElem?.mpr (by simp)
  simpa using List.find?_eq_none.mp h _ hmem

/-- Rows of one length fill a buffer of the right size. -/
theorem wellFormed_of_rows {rows : List (List Float)} {cols : ℕ}
    (h : ∀ row ∈ rows, row.length = cols) :
    WellFormed ⟨rows.length, cols, rows.flatten.toArray⟩ := by
  rw [WellFormed, List.size_toArray, List.length_flatten, List.map_congr_left h]
  simp

theorem ofRows_gives (rows : List (List Float)) : Gives WellFormed (ofRows rows) := by
  unfold ofRows
  dsimp only
  split
  · exact nofun
  · exact wellFormed_of_rows (length_eq_of_find?_eq_none ‹_›)

theorem dot_gives (a b : Matrix) : Gives WellFormed (dot a b) := by
  unfold dot
  split_ifs
  · exact wellFormed_build ..
  · exact nofun

theorem zipWith_gives (op : Arith) (a b : Matrix) :
    Gives (fun m => a.WellFormed → b.WellFormed → m.WellFormed) (zipWith op a b) := by
  unfold zipWith
  split_ifs with hshape
  · apply (op.zipFloats_gives ..).map
    intro data hdata ha hb
    obtain ⟨hrows, hcols⟩ := Prod.mk.inj hshape
    have hsize : a.data.size = b.data.size := by rw [ha, hb, hrows, hcols]
    exact (hdata hsize).trans ha
  · exact nofun

theorem broadcast_gives (op : Arith) (a : Matrix) (y : Float) :
    Gives (fun m => a.WellFormed → m.WellFormed) (broadcast op a y) :=
  (op.broadcastFloats_gives a.data y).map fun _ hdata ha => hdata.trans ha

end Matrix

namespace Value

theorem relate_gives (r : Relation) (a b : Value) : Gives WellFormed (relate r a b) := by
  unfold relate
  split
  · exact .bool _
  · exact nofun

theorem calculate_gives (op : Arith) (a b : Value) :
    Gives (fun v => a.WellFormed → b.WellFormed → v.WellFormed) (calculate op a b) := by
  unfold calculate
  split
  · exact (Number.apply_gives ..).map fun _ hn _ _ => .number hn
  · exact (NumVector.zipWith_gives ..).map fun _ _ _ _ => .numVector _
  · apply (Matrix.zipWith_gives ..).map
    intro m hm ha hb
    cases ha with
    | matrix ha =>
      cases hb with
      | matrix hb => exact .matrix (hm ha hb)
  · exact (NumVector.broadcast_gives ..).map fun _ _ _ _ => .numVector _
  · apply (Matrix.broadcast_gives ..).map
    intro m hm ha _
    cases ha with
    | matrix ha => exact .matrix (hm ha)
  · exact nofun

theorem binary_gives (op : Operator) (a b : Value) :
    Gives (fun v => a.WellFormed → b.WellFormed → v.WellFormed) (binary op a b) := by
  cases op with
  | equal => exact fun _ _ => .bool _
  | notEqual => exact fun _ _ => .bool _
  | relation r => exact (relate_gives r a b).mono fun _ hv _ _ => hv
  | arith op => exact calculate_gives op a b

end Value

end MatrixLisp
