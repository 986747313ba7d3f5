import Mathlib.Tactic
import MatrixLisp.Proofs.Reader.Recognition
import MatrixLisp.Proofs.Token.Scan

/-!
# Reading line by line

No form is spelled with a string that lacks its closing quote. A line that is read therefore ends
where it ends also when more text follows behind a line feed, and lines that are read one by one are
read as one text.
-/
namespace MatrixLisp.Reader

open Token Text

/-- No spelling has a string without its closing quote. -/
theorem Denotes.unterminated_not_mem {spelling : List TokenKind} {v : Value}
    (h : Denotes spelling v) (s : String) : .unterminated s ∉ spelling := by
  have hparts : ∀ parts : Parts, (∀ p ∈ parts, .unterminated s ∉ p.1) →
      .unterminated s ∉ parts.spelling := by
    intro parts hparts hmem
    obtain ⟨p, hp, hs⟩ := Parts.mem_spelling.mp hmem
    exact hparts p hp hs
  induction h with
  | atom => simp
  | string => simp
  | caret => simp
  | semicolon => simp
  | list _ ih => simpa using hparts _ ih
  | vector _ ih => simpa using hparts _ ih
  | map _ _ ih => simpa using hparts _ ih
  | mark m _ ih => simpa using ih

theorem Spells.unterminated_not_mem {kinds : List TokenKind} {vs : List Value}
    (h : Spells kinds vs) (s : String) : .unterminated s ∉ kinds := by
  obtain ⟨parts, hparts, rfl, -⟩ := h
  intro hs
  obtain ⟨p, hp, hs⟩ := Parts.mem_spelling.mp hs
  exact (hparts p hp).unterminated_not_mem s hs

/-- What is spelled on both sides of a separator is spelled with it. -/
theorem Spells.separated {cs rest : List Char} {vs ws : List Value} (h : Spells (kinds cs) vs)
    (hrest : Spells (kinds rest) ws) {c : Char} (hc : isSeparator c = true) :
    Spells (kinds (cs ++ c :: rest)) (vs ++ ws) := by
  rw [kinds_append_separator h.unterminated_not_mem hc, kinds_cons_of_separator hc]
  exact h.append hrest

/-- The values that a text is read as. -/
def Reads (source : String) (vs : List Value) : Prop :=
  (readAll source).map (List.map Prod.fst) = .ok vs

theorem Reads.exists_readAll {source : String} {vs : List Value} (h : Reads source vs) :
    ∃ forms, readAll source = .ok forms ∧ forms.map Prod.fst = vs := by
  unfold Reads at h
  cases hread : readAll source with
  | error e =>
    rw [hread] at h
    cases h
  | ok forms =>
    rw [hread] at h
    exact ⟨forms, rfl, Except.ok.inj h⟩

theorem reads_iff_spells {source : String} {vs : List Value} :
    Reads source vs ↔ Spells (kinds source.toList) vs := readForms_eq_ok_iff_spells

/-- Lines that are read one by one are read as one text. -/
theorem reads_intercalate {lines : List String} {vss : List (List Value)}
    (h : List.Forall₂ Reads lines vss) : Reads ("\n".intercalate lines) vss.flatten := by
  rw [reads_iff_spells]
  induction h with
  | nil => simpa using Spells.nil
  | @cons line vs lines vss hline hlines ih =>
    rw [reads_iff_spells] at hline
    cases hlines with
    | nil => simpa using hline
    | cons hnext hlines =>
      have hfeed : isSeparator '\n' = true := by decide
      rw [String.intercalate_cons_cons, List.flatten_cons]
      simpa using hline.separated ih hfeed

end MatrixLisp.Reader
