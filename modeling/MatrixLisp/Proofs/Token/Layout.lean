import Mathlib
import MatrixLisp.Proofs.Token.Scan

/-!
# Layout

The text of a lexeme is cut as that lexeme wherever a separator stands behind it, or nothing. So the
texts of tokens can be laid out anew, with any separators between them and at both ends, and are cut
into the same tokens, also where two of them stood side by side before. Only a string that lacks its
closing quote would take in what follows.
-/
namespace MatrixLisp.Token

open Text

/-- A text that is made of separators only. -/
def IsGap (s : String) : Prop := ∀ c ∈ s.toList, isSeparator c = true

instance (s : String) : Decidable (IsGap s) :=
  decidable_of_iff (s.toList.all isSeparator = true) List.all_eq_true

/-- The texts of tokens with gaps between them; the gap of number zero stands behind the first token. -/
def layOut (gap : ℕ → String) : List TokenKind → String
  | [] => ""
  | [kind] => kind.text
  | kind :: next :: rest => kind.text ++ gap 0 ++ layOut (fun i => gap (i + 1)) (next :: rest)

theorem kinds_gap_append {s : String} (h : IsGap s) (rest : List Char) :
    kinds (s.toList ++ rest) = kinds rest := by
  rw [kinds, scan_separators 0 h, map_kind_scan]

/-- A separator cannot continue an atom. -/
theorem boundary_gap_append {s : String} (h : IsGap s) {rest : List Char}
    (hrest : s = "" → Boundary rest) : Boundary (s.toList ++ rest) := by
  cases hs : s.toList with
  | nil => exact hrest (String.toList_eq_nil_iff.mp hs)
  | cons c cs =>
    have hc : isSeparator c = true := h c (by simp [hs])
    exact boundary_cons (by simp [continuesAtom, hc]) _

/-- Lexemes that are laid out with gaps between them are read back, up to a boundary. -/
theorem kinds_layOut_append {spelling : List TokenKind} (h : ∀ kind ∈ spelling, IsLexeme kind)
    {gap : ℕ → String} (hgap : ∀ i, i + 1 < spelling.length → gap i ≠ "" ∧ IsGap (gap i))
    {rest : List Char} (hrest : Boundary rest) :
    kinds ((layOut gap spelling).toList ++ rest) = spelling ++ kinds rest := by
  fun_induction layOut gap spelling with
  | case1 => rfl
  | case2 gap kind => exact kinds_text_append (h kind List.mem_cons_self) hrest
  | case3 gap kind next others ih =>
    obtain ⟨hne, hfirst⟩ := hgap 0 (by simp)
    have hothers : ∀ other ∈ next :: others, IsLexeme other :=
      fun other hother => h other (List.mem_cons_of_mem kind hother)
    have hlater : ∀ i, i + 1 < (next :: others).length →
        gap (i + 1) ≠ "" ∧ IsGap (gap (i + 1)) :=
      fun i hi => hgap (i + 1) (Nat.succ_lt_succ hi)
    rw [String.toList_append, String.toList_append, List.append_assoc, List.append_assoc,
      kinds_text_append (h kind List.mem_cons_self)
        (boundary_gap_append hfirst fun hempty => absurd hempty hne),
      kinds_gap_append hfirst, ih hothers hlater]
    rfl

theorem kinds_layOut {spelling : List TokenKind} (h : ∀ kind ∈ spelling, IsLexeme kind)
    {gap : ℕ → String} (hgap : ∀ i, i + 1 < spelling.length → gap i ≠ "" ∧ IsGap (gap i)) :
    kinds (layOut gap spelling).toList = spelling := by
  have hlaid := kinds_layOut_append h hgap boundary_nil
  rwa [kinds_nil, List.append_nil, List.append_nil] at hlaid

/-- Lexemes that are written with blanks between them are read back. -/
theorem kinds_layOut_blank {spelling : List TokenKind} (h : ∀ kind ∈ spelling, IsLexeme kind) :
    kinds (layOut (fun _ => " ") spelling).toList = spelling :=
  kinds_layOut h fun _ _ => by decide

/-- The tokens of a text in which no string lacks its closing quote are lexemes. -/
theorem isLexeme_of_terminated {source : String} (h : Terminated (tokenize source)) :
    ∀ kind ∈ (tokenize source).map Token.kind, IsLexeme kind := by
  intro kind hkind
  rcases isLexeme_of_mem_kinds hkind with hlexeme | ⟨s, rfl⟩
  · exact hlexeme
  · obtain ⟨t, ht, hs⟩ := List.mem_map.mp hkind
    exact absurd hs (h t ht s)

/-- Layout does not matter: the texts of the tokens of a source, laid out anew with separators, at
least one between two tokens, are cut into the same kinds of tokens with the same texts. -/
theorem tokenize_layOut {source : String} (h : Terminated (tokenize source)) {front back : String}
    (hfront : IsGap front) (hback : IsGap back) {gap : ℕ → String}
    (hgap : ∀ i, i + 1 < (tokenize source).length → gap i ≠ "" ∧ IsGap (gap i)) :
    (tokenize (front ++ layOut gap ((tokenize source).map Token.kind) ++ back)).map
        (fun t => (t.kind, t.kind.text)) =
      (tokenize source).map fun t => (t.kind, t.kind.text) := by
  have hkinds : kinds (front ++ layOut gap ((tokenize source).map Token.kind) ++ back).toList =
      (tokenize source).map Token.kind := by
    have hboundary : Boundary (back.toList ++ []) := boundary_gap_append hback fun _ => boundary_nil
    have hlaid := kinds_layOut_append (isLexeme_of_terminated h) (by simpa using hgap) hboundary
    rw [kinds_gap_append hback, kinds_nil, List.append_nil, List.append_nil] at hlaid
    rw [String.toList_append, String.toList_append, List.append_assoc, kinds_gap_append hfront, hlaid]
  have htexts := congrArg (List.map fun kind : TokenKind => (kind, kind.text)) hkinds
  rw [kinds, List.map_map, List.map_map] at htexts
  exact htexts

/-- Tokens that stood side by side: a mark of two characters, an atom with an `@` inside, a string and
a caret. -/
theorem tokenize_layOut_adjacent :
    (tokenize "~@a@b\x22;\x22^").map Token.kind =
      [.mark .spliceUnquote, .atom "a@b", .string "\x22;\x22", .caret] ∧
    (tokenize "\t~@,,a@b\n\x22;\x22 ^ ").map (fun t => (t.kind, t.kind.text)) =
      (tokenize "~@a@b\x22;\x22^").map fun t => (t.kind, t.kind.text) := by
  have hkinds : (tokenize "~@a@b\x22;\x22^").map Token.kind =
      [.mark .spliceUnquote, .atom "a@b", .string "\x22;\x22", .caret] := by cbv
  have hterminated : Terminated (tokenize "~@a@b\x22;\x22^") := by
    intro t ht s hs
    have hmem := List.mem_map_of_mem (f := Token.kind) ht
    rw [hkinds, hs] at hmem
    simp at hmem
  have hfront : IsGap "\t" := by decide
  have hback : IsGap " " := by decide
  have hgap : ∀ i, i + 1 < (tokenize "~@a@b\x22;\x22^").length →
      [",,", "\n", " "].getD i "" ≠ "" ∧ IsGap ([",,", "\n", " "].getD i "") := by
    intro i hi
    have hlength := congrArg List.length hkinds
    rw [List.length_map] at hlength
    rw [hlength] at hi
    have hlt : i < 3 := Nat.succ_lt_succ_iff.mp hi
    interval_cases i <;> decide
  have hlaid := tokenize_layOut hterminated hfront hback hgap
  rw [hkinds] at hlaid
  exact ⟨hkinds, hlaid⟩

end MatrixLisp.Token
