import Mathlib.Tactic
import MatrixLisp.Builtin.Call
import MatrixLisp.Proofs.Collect
import MatrixLisp.Proofs.Linear.Entries
import MatrixLisp.Proofs.Value.Operations

/-!
# Matrices written row by row

The builtin `matrix` takes a sequence in which the symbol `;` stands between rows. There is one way to
cut such a sequence into rows without separators. All values in the rows have to be numbers and all rows
to have one length; that there are other values than numbers is noticed first. A matrix that is written
out in this way is read back as it was.
-/
namespace MatrixLisp

/-! ## Rows of a sequence -/

namespace Builtin

variable {v : Value} {items : List Value} {rows : List (List Value)}

theorem isRowSeparator_iff : isRowSeparator v = true ↔ v = .symbol ";" := by
  cases v <;> simp [isRowSeparator, Value.symbol?]

theorem isRowSeparator_eq_false_iff : isRowSeparator v = false ↔ v ≠ .symbol ";" := by
  rw [← Bool.not_eq_true, isRowSeparator_iff]

/-- A sequence consists of rows without separators, with a separator between any two of them. -/
structure SplitsInto (items : List Value) (rows : List (List Value)) : Prop where
  ne_nil : rows ≠ []
  free : ∀ row ∈ rows, ∀ v ∈ row, v ≠ .symbol ";"
  joined : [.symbol ";"].intercalate rows = items

theorem splitsInto_segments (items : List Value) :
    SplitsInto items (segments isRowSeparator items) := by
  induction items with
  | nil => exact ⟨by simp [segments], by simp [segments], rfl⟩
  | cons v items ih =>
    obtain ⟨hne, hfree, hjoined⟩ := ih
    rw [segments, List.splitOnP_cons_eq_if_modifyHead, ← segments]
    split_ifs with hv
    · refine ⟨nofun, List.forall_mem_cons.mpr ⟨nofun, hfree⟩, ?_⟩
      rw [List.intercalate_cons_of_ne_nil hne, hjoined, isRowSeparator_iff.mp hv]
      rfl
    · obtain ⟨row, rows, hrows⟩ := List.exists_cons_of_ne_nil hne
      rw [hrows] at hfree hjoined
      rw [hrows, List.modifyHead_cons]
      obtain ⟨hrow, hrest⟩ := List.forall_mem_cons.mp hfree
      refine ⟨nofun, List.forall_mem_cons.mpr ⟨?_, hrest⟩, ?_⟩
      · exact List.forall_mem_cons.mpr ⟨fun h => hv (isRowSeparator_iff.mpr h), hrow⟩
      · rw [List.intercalate_cons_cons_left, hjoined]

/-- There is one way to cut a sequence at its separators. -/
theorem SplitsInto.eq_segments (h : SplitsInto items rows) :
    rows = segments isRowSeparator items := by
  obtain ⟨hne, hfree, rfl⟩ := h
  induction rows with
  | nil => exact absurd rfl hne
  | cons row rest ih =>
    obtain ⟨hrow, hrest⟩ := List.forall_mem_cons.mp hfree
    have hrow : ∀ v ∈ row, isRowSeparator v = false := fun v hv =>
      isRowSeparator_eq_false_iff.mpr (hrow v hv)
    by_cases hnil : rest = []
    · rw [hnil, List.intercalate_singleton, segments, List.splitOnP_eq_singleton hrow]
    · rw [List.intercalate_cons_of_ne_nil hnil, List.append_assoc, List.singleton_append, segments,
        List.splitOnP_append_cons_of_forall_mem hrow _ rfl, ← segments, ← ih hnil hrest]

theorem splitsInto_iff : SplitsInto items rows ↔ rows = segments isRowSeparator items :=
  ⟨SplitsInto.eq_segments, fun h => h ▸ splitsInto_segments items⟩

/-- The rows are one more than the separators. -/
theorem length_segments (items : List Value) :
    (segments isRowSeparator items).length = items.countP isRowSeparator + 1 := by
  induction items with
  | nil => rfl
  | cons v items ih =>
    rw [segments, List.splitOnP_cons_eq_if_modifyHead, ← segments, List.countP_cons]
    split_ifs <;> simp [ih]

/-- The values in the rows are those of the sequence without its separators. -/
theorem SplitsInto.mem_iff (h : SplitsInto items rows) :
    (∃ row ∈ rows, v ∈ row) ↔ v ∈ items ∧ v ≠ .symbol ";" := by
  obtain ⟨-, hfree, rfl⟩ := h
  induction rows with
  | nil => simp
  | cons row rest ih =>
    obtain ⟨hrow, hrest⟩ := List.forall_mem_cons.mp hfree
    have hmem : v ∈ row → v ≠ .symbol ";" := hrow v
    by_cases hnil : rest = []
    · simpa [hnil] using hmem
    · rw [List.exists_mem_cons_iff, ih hrest, List.intercalate_cons_of_ne_nil hnil]
      simp only [List.mem_append, List.mem_singleton]
      tauto

/-- Every value but the separators is a number. -/
def AllNumbers (items : List Value) : Prop := ∀ v ∈ items, v ≠ .symbol ";" → ∃ n, v = .number n

/-- All rows have one length. -/
def SameLength {α : Type} (rows : List (List α)) : Prop :=
  ∀ row ∈ rows, ∀ other ∈ rows, row.length = other.length

end Builtin

/-! ## Matrices of rows -/

namespace Matrix

variable {m m' : Matrix} {rows : List (List Float)}

/-- The entries of a matrix are the elements of its rows. -/
structure HasRows (m : Matrix) (rows : List (List Float)) : Prop where
  wellFormed : m.WellFormed
  rows_eq : m.rows = rows.length
  length_eq : ∀ row ∈ rows, row.length = m.cols
  get?_eq : ∀ i j, m.get? i j = rows[i]?.bind (·[j]?)

/-- With rows of one length, the position of an element among those of all rows tells its row. -/
theorem getElem?_flatten {cols i j : ℕ} (h : ∀ row ∈ rows, row.length = cols) (hj : j < cols) :
    rows.flatten[i * cols + j]? = rows[i]?.bind (·[j]?) := by
  induction rows generalizing i with
  | nil => simp
  | cons row rest ih =>
    obtain ⟨hrow, hrest⟩ := List.forall_mem_cons.mp h
    cases i with
    | zero =>
      rw [List.flatten_cons, Nat.zero_mul, Nat.zero_add, List.getElem?_append_left (hrow ▸ hj)]
      rfl
    | succ i =>
      have hindex : (i + 1) * cols + j = row.length + (i * cols + j) := by
        rw [hrow, Nat.succ_mul]
        omega
      rw [List.flatten_cons, hindex, List.getElem?_append_right (Nat.le_add_right ..),
        Nat.add_sub_cancel_left, ih hrest]
      rfl

theorem hasRows_mk {cols : ℕ} (h : ∀ row ∈ rows, row.length = cols) :
    HasRows ⟨rows.length, cols, rows.flatten.toArray⟩ rows := by
  refine ⟨wellFormed_of_rows h, rfl, h, fun i j => ?_⟩
  by_cases hj : j < cols
  · by_cases hi : i < rows.length
    · rw [get?, if_pos ⟨hi, hj⟩, List.getElem?_toArray, getElem?_flatten h hj]
    · rw [get?, if_neg fun hij => hi hij.1, List.getElem?_eq_none (Nat.le_of_not_lt hi)]
      rfl
  · rw [get?, if_neg fun hij => hj hij.2]
    cases hrow : rows[i]? with
    | none => rfl
    | some row =>
      have hlength := h row (List.mem_of_getElem? hrow)
      exact (List.getElem?_eq_none (by omega)).symm

/-- Rows make a matrix if they have one length; otherwise the failure is one of values. -/
theorem ofRows_cases (rows : List (List Float)) :
    (Builtin.SameLength rows ∧ ∃ m, ofRows rows = .ok m ∧ m.HasRows rows) ∨
      ¬Builtin.SameLength rows ∧ ∃ f, ofRows rows = .error f ∧ f.kind = .badValue := by
  unfold ofRows
  dsimp only
  split
  · rename_i row i hfind
    refine Or.inr ⟨fun hsame => ?_, _, rfl, rfl⟩
    have hrow : row ∈ rows := List.fst_mem_of_mem_zipIdx (List.mem_of_find?_eq_some hfind)
    have hragged := List.find?_some hfind
    cases rows with
    | nil => cases hrow
    | cons first rest => simp [hsame row hrow first (by simp)] at hragged
  · have hlength := length_eq_of_find?_eq_none ‹_›
    exact Or.inl ⟨fun row hrow other hother => (hlength row hrow).trans (hlength other hother).symm,
      _, rfl, hasRows_mk hlength⟩

/-- The entries of a matrix row by row, with a separator between any two rows. -/
def listing (m : Matrix) : List Value :=
  [.symbol ";"].intercalate ((List.range m.rows).map fun i => (m.row i).map Value.float)

theorem splitsInto_listing (h : 0 < m.rows) :
    Builtin.SplitsInto m.listing ((List.range m.rows).map fun i => (m.row i).map Value.float) := by
  refine ⟨by simpa using Nat.ne_of_gt h, fun row hrow v hv => ?_, rfl⟩
  obtain ⟨i, -, rfl⟩ := List.mem_map.mp hrow
  obtain ⟨x, -, rfl⟩ := List.mem_map.mp hv
  exact nofun

end Matrix

/-! ## The builtin -/

namespace Builtin

variable {b : Builtin} {v : Value} {items : List Value} {rows : List (List Value)}

theorem float?_of_floatOf_eq_ok {x : Float} (h : b.floatOf v = .ok x) : some x = v.float? := by
  unfold floatOf at h
  split at h
  · cases h
    exact Eq.symm ‹_›
  · cases h

theorem exists_floatOf_eq_ok_iff : (∃ x, b.floatOf v = .ok x) ↔ ∃ n, v = .number n := by
  cases v <;> simp [floatOf, Value.float?, Value.number?]

theorem kind_of_floatOf_eq_error {f : Fault} (h : b.floatOf v = .error f) : f.kind = .wrongType := by
  unfold floatOf at h
  split at h
  · cases h
  · cases h
    rfl

/-- The floats of the values in the rows. -/
def floatRows (rows : List (List Value)) : Except Fault (List (List Float)) :=
  rows.mapM fun row => row.mapM matrix.floatOf

theorem floats_of_floatRows_eq_ok {data : List (List Float)} (h : floatRows rows = .ok data) :
    data.map (List.map some) = rows.map (List.map Value.float?) :=
  Collect.map_eq_map_of_mapM_eq_ok h fun _ _ hrow =>
    Collect.map_eq_map_of_mapM_eq_ok hrow fun _ _ => float?_of_floatOf_eq_ok

theorem exists_floatRows_eq_ok_iff (h : SplitsInto items rows) :
    (∃ data, floatRows rows = .ok data) ↔ AllNumbers items := by
  simp only [floatRows, Collect.exists_mapM_eq_ok_iff, exists_floatOf_eq_ok_iff]
  constructor
  · intro hrows v hv hne
    obtain ⟨row, hrow, hmem⟩ := h.mem_iff.mpr ⟨hv, hne⟩
    exact hrows row hrow v hmem
  · intro hitems row hrow v hv
    obtain ⟨hmem, hne⟩ := h.mem_iff.mp ⟨row, hrow, hv⟩
    exact hitems v hmem hne

theorem kind_of_floatRows_eq_error {f : Fault} (h : floatRows rows = .error f) :
    f.kind = .wrongType := by
  obtain ⟨i, row, -, hrow, -⟩ := Collect.mapM_eq_error_iff.mp h
  obtain ⟨j, v, -, hv, -⟩ := Collect.mapM_eq_error_iff.mp hrow
  exact kind_of_floatOf_eq_error hv

theorem sameLength_iff_lengths {α : Type} {rows : List (List α)} :
    SameLength rows ↔ ∀ m ∈ rows.map List.length, ∀ n ∈ rows.map List.length, m = n := by
  simp [SameLength]

section Floats

variable {data : List (List Float)}
  (h : data.map (List.map some) = rows.map (List.map Value.float?))
include h

theorem lengths_of_floats : data.map List.length = rows.map List.length := by
  have hlengths := congrArg (List.map List.length) h
  simpa only [List.map_map, Function.comp_def, List.length_map] using hlengths

theorem getElem?_of_floats (i j : ℕ) :
    data[i]?.bind (·[j]?) = rows[i]?.bind fun row => row[j]?.bind Value.float? :=
  calc
    data[i]?.bind (·[j]?) = (data.map (List.map some))[i]?.bind fun xs => xs[j]?.bind id := by
      simp [Option.bind_map]
    _ = (rows.map (List.map Value.float?))[i]?.bind fun xs => xs[j]?.bind id := by rw [h]
    _ = rows[i]?.bind fun row => row[j]?.bind Value.float? := by
      simp [Option.bind_map]

theorem sameLength_of_floats : SameLength data ↔ SameLength rows := by
  rw [sameLength_iff_lengths, sameLength_iff_lengths, lengths_of_floats h]

end Floats

/-- The matrix that a sequence stands for: it has the rows of the sequence, but none if the sequence is
empty, and its entries are the floats of the values. -/
structure StandsFor (items : List Value) (rows : List (List Value)) (a : Matrix) : Prop where
  wellFormed : a.WellFormed
  rows_eq : a.rows = if items = [] then 0 else rows.length
  length_eq : ∀ row ∈ rows, row.length = a.cols
  get?_eq : ∀ i j, a.get? i j = rows[i]?.bind fun row => row[j]?.bind Value.float?

theorem standsFor_empty : StandsFor [] [[]] .empty := by
  refine ⟨rfl, rfl, by simp [Matrix.empty], fun i j => ?_⟩
  rw [Matrix.get?, if_neg fun h => Nat.not_lt_zero _ h.1]
  cases i <;> rfl

theorem standsFor_of_hasRows (hne : items ≠ []) {data : List (List Float)} {a : Matrix}
    (hfloats : data.map (List.map some) = rows.map (List.map Value.float?)) (ha : a.HasRows data) :
    StandsFor items rows a := by
  have hlengths := lengths_of_floats hfloats
  refine ⟨ha.wellFormed, ?_, fun row hrow => ?_, fun i j => ?_⟩
  · rw [if_neg hne, ha.rows_eq]
    simpa using congrArg List.length hlengths
  · have hlength : row.length ∈ data.map List.length := hlengths ▸ List.mem_map_of_mem hrow
    obtain ⟨floats, hmem, heq⟩ := List.mem_map.mp hlength
    exact heq.symm.trans (ha.length_eq floats hmem)
  · rw [ha.get?_eq, getElem?_of_floats hfloats]

/-- A sequence of numbers in rows of one length gives a matrix; otherwise the failure is one of types
if there is a value that is no number, and one of values if there is none. -/
theorem matrixOf_cases (h : SplitsInto items rows) :
    (AllNumbers items ∧ SameLength rows ∧ ∃ a, matrixOf items = .ok a ∧ StandsFor items rows a) ∨
    (¬AllNumbers items ∧ ∃ f, matrixOf items = .error f ∧ f.kind = .wrongType) ∨
    AllNumbers items ∧ ¬SameLength rows ∧ ∃ f, matrixOf items = .error f ∧ f.kind = .badValue := by
  by_cases hne : items = []
  · subst hne
    obtain rfl : rows = [[]] := h.eq_segments
    exact Or.inl ⟨nofun, by simp [SameLength], _, rfl, standsFor_empty⟩
  · have hmatrix : matrixOf items = floatRows rows >>= Matrix.ofRows := by
      rw [matrixOf, if_neg (by simpa using hne), ← h.eq_segments]
      rfl
    rw [hmatrix, ← exists_floatRows_eq_ok_iff h]
    cases hdata : floatRows rows with
    | error f => exact Or.inr (Or.inl ⟨by simp, f, rfl, kind_of_floatRows_eq_error hdata⟩)
    | ok data =>
      have hfloats := floats_of_floatRows_eq_ok hdata
      rw [← sameLength_of_floats hfloats]
      obtain ⟨hsame, a, ha, hrows⟩ | ⟨hragged, f, hf, hkind⟩ := Matrix.ofRows_cases data
      · exact Or.inl ⟨⟨data, rfl⟩, hsame, a, ha, standsFor_of_hasRows hne hfloats hrows⟩
      · exact Or.inr (Or.inr ⟨⟨data, rfl⟩, hragged, f, hf, hkind⟩)

/-- A matrix with two rows, or with a row that is not empty, is written as a sequence that is not
empty. -/
theorem listing_ne_nil {m : Matrix} (hm : m.WellFormed)
    (hrows : 2 ≤ m.rows ∨ m.rows = 1 ∧ 1 ≤ m.cols) : m.listing ≠ [] := by
  intro hnil
  have hpos : 0 < m.rows := by omega
  have hsplit := (m.splitsInto_listing hpos).eq_segments
  rw [hnil] at hsplit
  have hone : m.rows = 1 := by simpa [segments] using congrArg List.length hsplit
  have hfirst : (m.row 0).map Value.float ∈ segments isRowSeparator [] :=
    hsplit ▸ List.mem_map.mpr ⟨0, List.mem_range.mpr hpos, rfl⟩
  have hcols : m.cols = 0 := by simpa [segments, hm.row_eq hpos] using hfirst
  omega

/-- Such a matrix is what its listing stands for. -/
theorem StandsFor.eq_of_listing {a m : Matrix} (hm : m.WellFormed)
    (hrows : 2 ≤ m.rows ∨ m.rows = 1 ∧ 1 ≤ m.cols)
    (h : StandsFor m.listing ((List.range m.rows).map fun i => (m.row i).map Value.float) a) :
    a = m := by
  have hpos : 0 < m.rows := by omega
  have hfirst := h.length_eq _ (List.mem_map.mpr ⟨0, List.mem_range.mpr hpos, rfl⟩)
  have hcols : a.cols = m.cols := by simpa [hm.row_eq hpos] using hfirst.symm
  refine h.wellFormed.ext_get? hm (Prod.ext ?_ hcols) fun i j => ?_
  · rw [Matrix.shape, h.rows_eq, if_neg (listing_ne_nil hm hrows)]
    simp [Matrix.shape]
  · rw [h.get?_eq, List.getElem?_map]
    by_cases hi : i < m.rows
    · rw [List.getElem?_range hi, ← hm.getElem?_row hi j]
      simp only [Option.map_some, Option.bind_some, List.getElem?_map]
      cases (m.row i)[j]? <;> rfl
    · rw [List.getElem?_eq_none (by simpa using hi), Matrix.get?, if_neg fun hij => hi hij.1]
      rfl

theorem matrixOf_listing {m : Matrix} (hm : m.WellFormed)
    (hrows : 2 ≤ m.rows ∨ m.rows = 1 ∧ 1 ≤ m.cols) : matrixOf m.listing = .ok m := by
  have hsplit := m.splitsInto_listing (by omega)
  have hnumbers : AllNumbers m.listing := by
    intro v hv hne
    obtain ⟨row, hrow, hmem⟩ := hsplit.mem_iff.mpr ⟨hv, hne⟩
    obtain ⟨i, -, rfl⟩ := List.mem_map.mp hrow
    obtain ⟨x, -, rfl⟩ := List.mem_map.mp hmem
    exact ⟨.float x, rfl⟩
  have hlength : ∀ row ∈ (List.range m.rows).map fun i => (m.row i).map Value.float,
      row.length = m.cols := by
    intro row hrow
    obtain ⟨i, hi, rfl⟩ := List.mem_map.mp hrow
    simp [hm.row_eq (List.mem_range.mp hi)]
  obtain ⟨-, -, a, ha, hstands⟩ | ⟨hnot, -⟩ | ⟨-, hragged, -⟩ := matrixOf_cases hsplit
  · rw [ha, hstands.eq_of_listing hm hrows]
  · exact absurd hnumbers hnot
  · exact absurd (fun row hrow other hother => (hlength row hrow).trans (hlength other hother).symm)
      hragged

/-- The call hands its argument's items on. -/
theorem call_matrix_apply (hv : v.items? = some items) (m : Machine) :
    call matrix [v] m = (Run.ofExcept (matrixOf items) >>= fun a => pure (Value.matrix a)) m := by
  cases v with
  | list _ =>
    cases hv
    rfl
  | vector _ =>
    cases hv
    rfl
  | _ => cases hv

/-- A list or vector is cut at the symbols `;`, in one way, into one row more than there are such
symbols. If all other values are numbers and the rows have one length, then `matrix` gives the matrix
of their floats, where the empty sequence stands for the empty matrix; a value that is no number makes
it fail for the types, and otherwise rows of different lengths make it fail for the values. A matrix
with two rows, or with a row that is not empty, is given back from its listing. -/
theorem call_matrix_by_rows :
    (∀ (v : Value) (items : List Value) (m : Machine), v.items? = some items →
      ∃ rows, (∀ other, SplitsInto items other ↔ other = rows) ∧
        rows.length = items.countP isRowSeparator + 1 ∧
        (AllNumbers items ∧ SameLength rows →
          ∃ a, call matrix [v] m = (.ok (.matrix a), m) ∧ StandsFor items rows a) ∧
        (¬AllNumbers items →
          ∃ f, call matrix [v] m = (.error (.fault f), m) ∧ f.kind = .wrongType) ∧
        (AllNumbers items ∧ ¬SameLength rows →
          ∃ f, call matrix [v] m = (.error (.fault f), m) ∧ f.kind = .badValue)) ∧
    ∀ (a : Matrix) (v : Value) (m : Machine), a.WellFormed →
      (2 ≤ a.rows ∨ a.rows = 1 ∧ 1 ≤ a.cols) → v.items? = some a.listing →
      call matrix [v] m = (.ok (.matrix a), m) := by
  constructor
  · intro v items m hv
    refine ⟨segments isRowSeparator items, fun _ => splitsInto_iff, length_segments items, ?_⟩
    rw [call_matrix_apply hv]
    obtain ⟨hnumbers, hsame, a, ha, hstands⟩ | ⟨hnot, f, hf, hkind⟩ |
        ⟨hnumbers, hragged, f, hf, hkind⟩ := matrixOf_cases (splitsInto_segments items)
    · rw [ha]
      exact ⟨fun _ => ⟨a, rfl, hstands⟩, fun h => absurd hnumbers h, fun h => absurd hsame h.2⟩
    · rw [hf]
      exact ⟨fun h => absurd h.1 hnot, fun _ => ⟨f, rfl, hkind⟩, fun h => absurd h.1 hnot⟩
    · rw [hf]
      exact ⟨fun h => absurd h.2 hragged, fun h => absurd hnumbers h, fun _ => ⟨f, rfl, hkind⟩⟩
  · intro a v m ha hrows hv
    rw [call_matrix_apply hv, matrixOf_listing ha hrows]
    rfl

/-- Two rows without entries are written as one separator; a separator in front of a number leaves a
row without entries before it. -/
theorem call_matrix_by_rows_empty :
    ∃ m : Machine, call matrix [.list [.symbol ";"]] m = (.ok (.matrix ⟨2, 0, #[]⟩), m) ∧
      ∃ f, call matrix [.vector [.symbol ";", .float 1.0]] m = (.error (.fault f), m) ∧
        f.kind = .badValue := by
  obtain ⟨hdecode, hlisting⟩ := call_matrix_by_rows
  refine ⟨⟨.empty, 0, "", .ofSeed 1⟩, hlisting ⟨2, 0, #[]⟩ _ _ rfl (Or.inl le_rfl) rfl, ?_⟩
  obtain ⟨rows, hrows, -, -, -, hragged⟩ :=
    hdecode (.vector [.symbol ";", .float 1.0]) _ ⟨.empty, 0, "", .ofSeed 1⟩ rfl
  have hsplit : SplitsInto [.symbol ";", .float 1.0] [[], [.float 1.0]] :=
    ⟨nofun, by simp, rfl⟩
  obtain rfl := (hrows _).mp hsplit
  exact hragged ⟨by simp [AllNumbers], by simp [SameLength]⟩

end Builtin

end MatrixLisp
