import Mathlib.Tactic
import MatrixLisp.Proofs.Decimal.FloatText
import MatrixLisp.Proofs.Linear.Entries

/-!
# Printed matrices

A matrix is printed in lines, one for each row. A column is as wide as the longest text in it, and every
text stands at the right end of its column, with one space between columns; so the columns stand under
one another. No text has a space in it, and the words of a line are the texts of its row.
-/
namespace MatrixLisp

/-! ## The text of an entry -/

namespace FloatText

open Literal

/-- The characters in which an entry is written. -/
def isCellChar (c : Char) : Bool := c.isDigit || ['-', '.', 'i', 'n', 'f', 'N', 'a'].contains c

/-- A text that is not empty and only has characters of entries. -/
structure IsCellText (cs : List Char) : Prop where
  ne_nil : cs ≠ []
  isCellChar : ∀ c ∈ cs, isCellChar c = true

theorem IsCellText.notMem {cs : List Char} (h : IsCellText cs) {c : Char}
    (hc : FloatText.isCellChar c = false) : c ∉ cs := by
  intro hmem
  rw [h.isCellChar c hmem] at hc
  cases hc

theorem isCellText_of_all {cs : List Char} (hne : cs ≠ [])
    (h : cs.all FloatText.isCellChar = true) : IsCellText cs := ⟨hne, List.all_eq_true.mp h⟩

theorem isCellText_of_isDigits {cs : List Char} (h : isDigits cs = true) : IsCellText cs := by
  obtain ⟨hne, hdigits⟩ : cs ≠ [] ∧ ∀ c ∈ cs, c.isDigit = true := by simpa [isDigits] using h
  exact ⟨hne, fun c hc => by rw [FloatText.isCellChar, hdigits c hc, Bool.true_or]⟩

theorem IsCellText.append {cs ds : List Char} (hc : ∀ c ∈ cs, FloatText.isCellChar c = true)
    (hd : IsCellText ds) : IsCellText (cs ++ ds) :=
  ⟨by simp [hd.ne_nil], List.forall_mem_append.mpr ⟨hc, hd.isCellChar⟩⟩

theorem isCellText_sign_append (x : Float) {s : String} (h : IsCellText s.toList) :
    IsCellText (sign x ++ s).toList := by
  rw [String.toList_append]
  refine .append (fun c hc => ?_) h
  obtain hsign | hsign := sign_eq x
  · simp [hsign] at hc
  · rw [hsign, List.mem_singleton] at hc
    rw [hc]
    rfl

theorem isCellText_positional (digits : ℕ) (power : ℤ) :
    IsCellText (positional digits power).toList := by
  by_cases h : 0 ≤ power
  · rw [positional, if_pos h, String.toList_ofList]
    have hdigits := isCellText_of_isDigits (isDigits_toDigits digits)
    refine ⟨by simp [hdigits.ne_nil], List.forall_mem_append.mpr ⟨hdigits.isCellChar, ?_⟩⟩
    intro c hc
    rw [List.eq_of_mem_replicate hc]
    rfl
  · obtain ⟨whole, part, hwhole, hpart, htext, -⟩ := exists_positional digits (Int.not_le.mp h)
    rw [htext]
    refine .append (isCellText_of_isDigits hwhole).isCellChar ⟨List.cons_ne_nil _ _, ?_⟩
    exact List.forall_mem_cons.mpr ⟨rfl, (isCellText_of_isDigits hpart).isCellChar⟩

theorem isCellText_plain (x : Float) : IsCellText (plain x).toList := by
  unfold plain
  split_ifs
  · exact isCellText_of_all (by decide) (by decide)
  · exact isCellText_sign_append x (isCellText_positional ..)
  · exact isCellText_sign_append x (isCellText_of_all (by decide) (by decide))

/-- An entry is written without spaces and without line breaks, and never as the empty text. -/
theorem isCellText_cell (x : Float) : IsCellText (cell x).toList := by
  unfold cell
  dsimp only
  split_ifs
  · exact isCellText_of_all (by decide) (by decide)
  · refine isCellText_sign_append x (isCellText_of_isDigits ?_)
    rw [show (toString (magnitude x).floor).toList = _ from Nat.toList_repr]
    exact isDigits_toDigits _
  · exact isCellText_plain x

end FloatText

/-! ## Blocks in columns -/

namespace Columns

variable {α : Type} {sep : α} {block : ℕ → List α} {width : ℕ → ℕ} {n j : ℕ}

/-- Where a column starts, behind the columns before it and the separator after each of these. -/
def start (width : ℕ → ℕ) (j : ℕ) : ℕ := ((List.range j).map fun k => width k + 1).sum

theorem start_succ (width : ℕ → ℕ) (j : ℕ) : start width (j + 1) = start width j + (width j + 1) := by
  simp [start, List.range_succ]

theorem start_le_start (width : ℕ → ℕ) (h : j ≤ n) : start width j ≤ start width n := by
  induction n, h using Nat.le_induction with
  | base => exact le_rfl
  | succ n _ ih => exact ih.trans (start_succ width n ▸ Nat.le_add_right ..)

/-- Blocks with a separator behind each of them. -/
def closed (sep : α) (block : ℕ → List α) (n : ℕ) : List α :=
  ((List.range n).map fun j => block j ++ [sep]).flatten

theorem closed_succ (sep : α) (block : ℕ → List α) (n : ℕ) :
    closed sep block (n + 1) = closed sep block n ++ (block n ++ [sep]) := by
  simp [closed, List.range_succ]

theorem intercalate_append_singleton {blocks : List (List α)} (h : blocks ≠ []) :
    [sep].intercalate blocks ++ [sep] = (blocks.map (· ++ [sep])).flatten := by
  induction blocks with
  | nil => exact absurd rfl h
  | cons b rest ih =>
    by_cases hrest : rest = []
    · simp [hrest]
    · rw [List.intercalate_cons_of_ne_nil hrest, List.append_assoc, ih hrest]
      rfl

theorem intercalate_range_append (hn : 0 < n) :
    [sep].intercalate ((List.range n).map block) ++ [sep] = closed sep block n := by
  rw [intercalate_append_singleton (by simpa using Nat.ne_of_gt hn), List.map_map]
  rfl

/-- Blocks and separators have no other characters than theirs. -/
theorem notMem_intercalate {a : α} (hn : 0 < n) (hsep : a ≠ sep) (hblock : ∀ j < n, a ∉ block j) :
    a ∉ [sep].intercalate ((List.range n).map block) := by
  intro ha
  have hclosed : a ∈ closed sep block n := by
    rw [← intercalate_range_append hn]
    exact List.mem_append_left _ ha
  simp only [closed, List.mem_flatten, List.mem_map, List.mem_range] at hclosed
  obtain ⟨_, ⟨j, hj, rfl⟩, ha⟩ := hclosed
  exact (List.mem_append.mp ha).elim (hblock j hj) fun h => hsep (List.mem_singleton.mp h)

/-- Behind the columns before it stands the block of a column. -/
theorem exists_closed_eq (sep : α) (block : ℕ → List α) (h : j < n) :
    ∃ rest, closed sep block n = closed sep block j ++ (block j ++ sep :: rest) := by
  induction n, h using Nat.le_induction with
  | base => exact ⟨[], closed_succ ..⟩
  | succ n _ ih =>
    obtain ⟨rest, hrest⟩ := ih
    exact ⟨rest ++ (block n ++ [sep]), by rw [closed_succ, hrest]; simp⟩

section Widths

variable (hwidth : ∀ j < n, (block j).length = width j)
include hwidth

theorem length_closed (sep : α) : (closed sep block n).length = start width n := by
  induction n with
  | zero => rfl
  | succ n ih =>
    rw [closed_succ, start_succ, List.length_append, ih fun j hj => hwidth j (Nat.lt_succ_of_lt hj),
      List.length_append, hwidth n n.lt_succ_self, List.length_singleton]

theorem drop_closed (sep : α) (h : j < n) : ∃ rest,
    (closed sep block n).drop (start width j) = block j ++ sep :: rest := by
  obtain ⟨rest, hrest⟩ := exists_closed_eq sep block h
  refine ⟨rest, ?_⟩
  rw [hrest, List.drop_left' (length_closed (fun k hk => hwidth k (hk.trans h)) sep)]

theorem length_intercalate (sep : α) (hn : 0 < n) :
    ([sep].intercalate ((List.range n).map block)).length + 1 = start width n := by
  rw [← length_closed hwidth sep, ← intercalate_range_append hn, List.length_append,
    List.length_singleton]

/-- In its column stands the block. -/
theorem take_drop_intercalate (sep : α) (h : j < n) :
    (([sep].intercalate ((List.range n).map block)).drop (start width j)).take (width j) = block j := by
  have hn := Nat.zero_lt_of_lt h
  have hlength := length_intercalate hwidth sep hn
  have hend : start width (j + 1) ≤ start width n := start_le_start width h
  have hnext := start_succ width j
  obtain ⟨rest, hrest⟩ := drop_closed hwidth sep h
  rw [← intercalate_range_append hn, List.drop_append_of_le_length (by omega)] at hrest
  calc
    _ = (([sep].intercalate ((List.range n).map block)).drop (start width j) ++ [sep]).take
        (width j) := by
      rw [List.take_append_of_le_length]
      rw [List.length_drop]
      omega
    _ = (block j ++ sep :: rest).take (width j) := by rw [hrest]
    _ = block j := by rw [List.take_left' (hwidth j h)]

/-- Behind every column but the last stands a separator. -/
theorem getElem?_intercalate (sep : α) (h : j + 1 < n) :
    ([sep].intercalate ((List.range n).map block))[start width j + width j]? = some sep := by
  have hj : j < n := Nat.lt_of_succ_lt h
  have hn := Nat.zero_lt_of_lt h
  have hlength := length_intercalate hwidth sep hn
  have hend : start width (j + 1 + 1) ≤ start width n := start_le_start width h
  have hnext := start_succ width j
  have hnext' := start_succ width (j + 1)
  obtain ⟨rest, hrest⟩ := drop_closed hwidth sep hj
  calc
    _ = ([sep].intercalate ((List.range n).map block) ++ [sep])[start width j + width j]? :=
      (List.getElem?_append_left (by omega)).symm
    _ = (block j ++ sep :: rest)[width j]? := by
      rw [intercalate_range_append hn, ← hrest, List.getElem?_drop]
    _ = some sep := by
      rw [← hwidth j hj, List.getElem?_append_right le_rfl, Nat.sub_self]
      rfl

end Widths

/-! ### Words -/

/-- The parts of a line between its runs of spaces. -/
def words (line : List Char) : List (List Char) :=
  (line.splitOnP (· == ' ')).filter fun word => !word.isEmpty

theorem words_append_space (cs ds : List Char) : words (cs ++ ' ' :: ds) = words cs ++ words ds := by
  rw [words, List.splitOnP_append_cons _ _ rfl, List.filter_append]
  rfl

theorem words_of_notMem {cs : List Char} (hne : cs ≠ []) (h : ' ' ∉ cs) : words cs = [cs] := by
  have hsplit : cs.splitOnP (· == ' ') = [cs] :=
    List.splitOnP_eq_singleton fun c hc => beq_false_of_ne fun heq => h (heq ▸ hc)
  simp [words, hsplit, hne]

theorem words_replicate_append (n : ℕ) (cs : List Char) :
    words (List.replicate n ' ' ++ cs) = words cs := by
  induction n with
  | zero => rfl
  | succ n ih => exact (words_append_space [] _).trans ih

/-- The words of a line are those of its blocks. -/
theorem words_intercalate (blocks : List (List Char)) :
    words ([' '].intercalate blocks) = blocks.flatMap words := by
  induction blocks with
  | nil => rfl
  | cons b rest ih =>
    by_cases hrest : rest = []
    · simp [hrest]
    · rw [List.intercalate_cons_of_ne_nil hrest, List.append_assoc, List.singleton_append,
        words_append_space, ih, List.flatMap_cons]

end Columns

/-! ## Lines -/

namespace Matrix

variable {m : Matrix} {i j : ℕ}

theorem toList_alignRight (width : ℕ) (s : String) :
    (alignRight width s).toList = List.replicate (width - s.length) ' ' ++ s.toList := by
  rw [alignRight, String.toList_append, String.toList_ofList]

theorem length_alignRight {width : ℕ} {s : String} (h : s.length ≤ width) :
    (alignRight width s).toList.length = width := by
  rw [toList_alignRight, List.length_append, List.length_replicate, String.length_toList]
  omega

/-- The greatest value of a function is found from the first value to the last one. -/
theorem isGreatest_foldl_max (f : ℕ → ℕ) {n : ℕ} (hn : 0 < n) :
    IsGreatest {k | ∃ i < n, f i = k} ((List.range n).foldl (fun k i => max k (f i)) 0) := by
  have hne : (List.range n).map f ≠ [] := by simpa using Nat.ne_of_gt hn
  obtain ⟨w, hw⟩ := Option.isSome_iff_exists.mp (List.isSome_max?_of_ne_nil hne)
  obtain ⟨hmem, hle⟩ := List.max?_eq_some_iff.mp hw
  have hfold : (List.range n).foldl (fun k i => max k (f i)) 0 = w := by
    rw [← List.foldl_map, List.foldl_max, hw]
    exact Nat.zero_max w
  rw [hfold]
  obtain ⟨i, hi, hf⟩ := List.mem_map.mp hmem
  refine ⟨⟨i, List.mem_range.mp hi, hf⟩, ?_⟩
  rintro _ ⟨i, hi, rfl⟩
  exact hle _ (List.mem_map_of_mem (List.mem_range.mpr hi))

theorem WellFormed.getD_cells (h : m.WellFormed) (hi : i < m.rows) (hj : j < m.cols) :
    m.cells.getD (i * m.cols + j) "" = FloatText.cell (m.entry i j) := by
  rw [Array.getD_eq_getD_getElem?, cells, Array.getElem?_map, h.getElem?_eq hi hj]
  rfl

/-- A column is as wide as the longest text in it. -/
theorem WellFormed.isGreatest_columnWidth (h : m.WellFormed) (hrows : 0 < m.rows) (hj : j < m.cols) :
    IsGreatest {n | ∃ i x, m.get? i j = some x ∧ (FloatText.cell x).length = n}
      (m.columnWidth m.cells j) := by
  have htexts : {n | ∃ i x, m.get? i j = some x ∧ (FloatText.cell x).length = n} =
      {n | ∃ i < m.rows, (m.cells.getD (i * m.cols + j) "").length = n} := by
    ext n
    refine exists_congr fun i => ⟨fun ⟨x, hx, hn⟩ => ?_, fun ⟨hi, hn⟩ => ⟨m.entry i j, ?_, ?_⟩⟩
    · obtain ⟨⟨hi, _⟩, rfl⟩ : (i < m.rows ∧ j < m.cols) ∧ m.entry i j = x := by
        simpa [h.get?_eq] using hx
      exact ⟨hi, by rw [h.getD_cells hi hj, hn]⟩
    · rw [h.get?_eq, if_pos ⟨hi, hj⟩]
    · rw [← hn, h.getD_cells hi hj]
  exact htexts ▸ isGreatest_foldl_max (fun i => (m.cells.getD (i * m.cols + j) "").length) hrows

/-- A printed row: all rows have one length, and every text stands at the right end of its column, with
a space behind each column but the last. The words are the texts, and there is no line break. -/
structure PrintsRow (m : Matrix) (width : ℕ → ℕ) (i : ℕ) (line : String) : Prop where
  length_eq : line.length + 1 = Columns.start width m.cols
  text_at : ∀ j x, m.get? i j = some x →
    (line.toList.drop (Columns.start width j)).take (width j) =
      List.replicate (width j - (FloatText.cell x).length) ' ' ++ (FloatText.cell x).toList
  space_at : ∀ j, j + 1 < m.cols → line.toList[Columns.start width j + width j]? = some ' '
  words_eq : Columns.words line.toList = (m.row i).map fun x => (FloatText.cell x).toList
  notMem : '\n' ∉ line.toList

/-- The characters in a column of a line. -/
def block (m : Matrix) (width : ℕ → ℕ) (i j : ℕ) : List Char :=
  (alignRight (width j) (FloatText.cell (m.entry i j))).toList

theorem words_block (m : Matrix) (width : ℕ → ℕ) (i j : ℕ) :
    Columns.words (m.block width i j) = [(FloatText.cell (m.entry i j)).toList] := by
  have hcell := FloatText.isCellText_cell (m.entry i j)
  rw [block, toList_alignRight, Columns.words_replicate_append]
  exact Columns.words_of_notMem hcell.ne_nil (hcell.notMem rfl)

theorem newline_notMem_block (m : Matrix) (width : ℕ → ℕ) (i j : ℕ) :
    '\n' ∉ m.block width i j := by
  rw [block, toList_alignRight]
  refine fun h => (List.mem_append.mp h).elim (fun h => ?_)
    ((FloatText.isCellText_cell (m.entry i j)).notMem rfl)
  exact absurd (List.eq_of_mem_replicate h) (by decide)

theorem WellFormed.toList_rowText (h : m.WellFormed) (hi : i < m.rows) (width : ℕ → ℕ) :
    (m.rowText m.cells ((List.range m.cols).map width) i).toList =
      [' '].intercalate ((List.range m.cols).map (m.block width i)) := by
  rw [rowText, String.toList_intercalate, List.map_map]
  refine congrArg [' '].intercalate (List.ext_getElem (by simp) fun j hj _ => ?_)
  have hj : j < m.cols := by simpa using hj
  simp [block, -Array.getD_eq_getD_getElem?, h.getD_cells hi hj]

theorem WellFormed.printsRow (h : m.WellFormed) (hcols : 0 < m.cols) (hi : i < m.rows) {width : ℕ → ℕ}
    (hwidth : ∀ j < m.cols, (FloatText.cell (m.entry i j)).length ≤ width j) :
    m.PrintsRow width i (m.rowText m.cells ((List.range m.cols).map width) i) := by
  have hlist := h.toList_rowText hi width
  have hblock : ∀ j < m.cols, (m.block width i j).length = width j :=
    fun j hj => length_alignRight (hwidth j hj)
  refine ⟨?_, fun j x hx => ?_, fun j hj => ?_, ?_, ?_⟩
  · rw [← String.length_toList, hlist]
    exact Columns.length_intercalate hblock ' ' hcols
  · obtain ⟨⟨_, hj⟩, rfl⟩ : (i < m.rows ∧ j < m.cols) ∧ m.entry i j = x := by
      simpa [h.get?_eq] using hx
    rw [hlist, Columns.take_drop_intercalate hblock ' ' hj]
    exact toList_alignRight ..
  · rw [hlist]
    exact Columns.getElem?_intercalate hblock ' ' hj
  · rw [hlist, Columns.words_intercalate, h.row_eq hi, List.flatMap_map, List.map_map,
      List.map_eq_flatMap]
    exact List.flatMap_congr fun j _ => m.words_block width i j
  · rw [hlist]
    exact Columns.notMem_intercalate hcols (by decide) fun j _ => m.newline_notMem_block width i j

/-- A matrix that is not empty is printed in as many lines as it has rows, in columns which are as wide
as the longest text in them. -/
theorem text_in_columns (h : m.WellFormed) (hrows : 0 < m.rows) (hcols : 0 < m.cols) :
    ∃ (lines : List String) (width : ℕ → ℕ),
      m.text = "[" ++ "\n ".intercalate lines ++ "]" ∧
      lines.length = m.rows ∧
      (∀ j < m.cols, IsGreatest
        {n | ∃ i x, m.get? i j = some x ∧ (FloatText.cell x).length = n} (width j)) ∧
      ∀ i line, lines[i]? = some line → m.PrintsRow width i line := by
  refine ⟨_, m.columnWidth m.cells, rfl, by simp, fun j hj => h.isGreatest_columnWidth hrows hj, ?_⟩
  intro i line hline
  obtain ⟨hi, rfl⟩ : i < m.rows ∧ _ = line := by
    simpa [List.getElem?_eq_some_iff] using hline
  refine h.printsRow hcols hi fun j hj => (h.isGreatest_columnWidth hrows hj).2 ?_
  exact ⟨i, m.entry i j, by rw [h.get?_eq, if_pos ⟨hi, hj⟩], rfl⟩

/-- A fraction over a whole number of two digits: each column is as wide as the longer of its texts. -/
theorem text_in_columns_square : ∃ (m : Matrix) (lines : List String) (width : ℕ → ℕ),
    m = ⟨2, 2, #[1.5, 200.0, -30.0, 4.0]⟩ ∧ m.WellFormed ∧
    m.text = "[" ++ "\n ".intercalate lines ++ "]" ∧ lines = ["1.5 200", "-30   4"] ∧
    width 0 = 3 ∧ width 1 = 3 ∧ m.PrintsRow width 0 "1.5 200" ∧ m.PrintsRow width 1 "-30   4" := by
  let m : Matrix := ⟨2, 2, #[1.5, 200.0, -30.0, 4.0]⟩
  have hwf : m.WellFormed := rfl
  have hrows : 0 < m.rows := Nat.two_pos
  obtain ⟨lines, width, htext, hlength, hwidth, hprints⟩ := text_in_columns hwf hrows Nat.two_pos
  obtain ⟨first, second, rfl⟩ := List.length_eq_two.mp hlength
  have hwidths : ∀ j < 2, width j = 3 := by
    intro j hj
    rw [(hwidth j hj).unique (hwf.isGreatest_columnWidth hrows hj)]
    interval_cases j <;> decide +kernel
  have hfirst := hprints 0 first rfl
  have hsecond := hprints 1 second rfl
  -- The lines are cut out of the printed text by their length.
  have hstart : Columns.start width m.cols = 8 := by
    show (width 0 + 1) + ((width 1 + 1) + 0) = 8
    rw [hwidths 0 (by decide), hwidths 1 (by decide)]
  have hline : first.toList.length = "1.5 200".toList.length := by
    have hchars := hfirst.length_eq
    rw [hstart, ← String.length_toList] at hchars
    exact Nat.succ_injective hchars
  have hprinted : m.text = "[1.5 200\n -30   4]" := by decide +kernel
  have hlist : "1.5 200".toList ++ ("\n ".toList ++ ("-30   4".toList ++ "]".toList)) =
      first.toList ++ ("\n ".toList ++ (second.toList ++ "]".toList)) := by
    have hchars := congrArg (fun s : String => s.toList.tail) (hprinted.symm.trans htext)
    simpa [String.toList_append] using hchars
  obtain ⟨hleft, hright⟩ := List.append_inj hlist hline.symm
  obtain rfl := String.toList_inj.mp hleft
  obtain rfl := String.toList_inj.mp (List.append_cancel_right (List.append_cancel_left hright))
  exact ⟨m, _, width, rfl, hwf, htext, rfl, hwidths 0 (by decide), hwidths 1 (by decide), hfirst,
    hsecond⟩

end Matrix

end MatrixLisp
