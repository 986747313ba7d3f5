import Mathlib
import MatrixLisp.Proofs.Reader.Grammar

/-!
# Reading recognises the grammar

The forms of a text are read exactly if its tokens are spellings of forms, one after another, and
the tokens of a text spell one sequence of values at most.
-/
namespace MatrixLisp.Reader

open Token

/-- Token kinds that spell values one after another. -/
def Spells (kinds : List TokenKind) (vs : List Value) : Prop :=
  ∃ parts : Parts, (∀ p ∈ parts, Denotes p.1 p.2) ∧ parts.spelling = kinds ∧ parts.values = vs

namespace Spells

theorem nil : Spells [] [] := ⟨[], by simp, rfl, rfl⟩

theorem cons {spelling kinds : List TokenKind} {v : Value} {vs : List Value}
    (hv : Denotes spelling v) (h : Spells kinds vs) : Spells (spelling ++ kinds) (v :: vs) := by
  obtain ⟨parts, hparts, rfl, rfl⟩ := h
  refine ⟨(spelling, v) :: parts, ?_, rfl, rfl⟩
  intro p hp
  rcases List.mem_cons.mp hp with rfl | hp
  · exact hv
  · exact hparts p hp

theorem append {kinds more : List TokenKind} {vs ws : List Value} (h : Spells kinds vs)
    (hmore : Spells more ws) : Spells (kinds ++ more) (vs ++ ws) := by
  obtain ⟨parts, hparts, rfl, rfl⟩ := h
  obtain ⟨others, hothers, rfl, rfl⟩ := hmore
  refine ⟨parts ++ others, ?_, by simp, by simp⟩
  intro p hp
  rcases List.mem_append.mp hp with hp | hp
  · exact hparts p hp
  · exact hothers p hp

end Spells

theorem spells_of_readForms {tokens : List Token} {forms : List Form}
    (h : readForms tokens = .ok forms) : Spells (tokens.map Token.kind) (forms.map Prod.fst) := by
  fun_induction readForms tokens generalizing forms with
  | case1 =>
    cases h
    exact .nil
  | case2 t rest result form hform =>
    rename_i ih
    obtain ⟨used, hused, hdenotes⟩ := readForm_sound (Prod.ext hform rfl)
    cases hrest : readForms result.2 with
    | error e =>
      rw [hrest] at h
      cases h
    | ok others =>
      rw [hrest] at h
      cases h
      rw [hused, List.map_append]
      exact .cons hdenotes (ih hrest)
  | case3 => cases h

/-- Tokens that spell values are read as these values. -/
theorem Spells.readForms {tokens : List Token} {vs : List Value}
    (h : Spells (tokens.map Token.kind) vs) :
    (readForms tokens).map (List.map Prod.fst) = .ok vs := by
  obtain ⟨parts, hparts, hspelling, rfl⟩ := h
  induction parts generalizing tokens with
  | nil =>
    have hnil : tokens = [] := by simpa using hspelling.symm
    rw [hnil, Reader.readForms]
    rfl
  | cons p parts ih =>
    obtain ⟨first, rest, rfl, hfirst, hrest⟩ := List.map_eq_append_iff.mp hspelling.symm
    obtain ⟨t, ts, span, rfl, hread⟩ := (hparts p (by simp)).readForm hfirst rest
    have hothers := ih (fun q hq => hparts q (by simp [hq])) hrest.symm
    rw [List.cons_append, Reader.readForms, hread]
    cases hforms : Reader.readForms rest with
    | error e =>
      rw [hforms] at hothers
      cases hothers
    | ok forms =>
      rw [hforms] at hothers
      exact congrArg (Except.map (p.2 :: ·)) hothers

theorem readForms_eq_ok_iff_spells {tokens : List Token} {vs : List Value} :
    (readForms tokens).map (List.map Prod.fst) = .ok vs ↔ Spells (tokens.map Token.kind) vs := by
  constructor
  · intro h
    cases hforms : readForms tokens with
    | error e =>
      rw [hforms] at h
      cases h
    | ok forms =>
      rw [hforms] at h
      cases h
      exact spells_of_readForms hforms
  · exact Spells.readForms

/-- No tokens spell two sequences of values: the reader, a function of the tokens, gives both. -/
theorem Spells.unique {kinds : List TokenKind} {vs ws : List Value} (hvs : Spells kinds vs)
    (hws : Spells kinds ws) : vs = ws := by
  have hkinds : (kinds.map (Token.mk · .dummy)).map Token.kind = kinds := by
    simp [Function.comp_def]
  rw [← hkinds] at hvs hws
  have hread := hvs.readForms
  rw [hws.readForms] at hread
  cases hread
  rfl

/-- A text is read as a sequence of values exactly if its tokens spell these values one after
another, and they spell no other sequence. -/
theorem readAll_eq_ok_iff_spells (source : String) (vs : List Value) :
    ((readAll source).map (List.map Prod.fst) = .ok vs ↔
      Spells ((tokenize source).map Token.kind) vs) ∧
    ∀ ws, Spells ((tokenize source).map Token.kind) vs →
      Spells ((tokenize source).map Token.kind) ws → ws = vs :=
  ⟨readForms_eq_ok_iff_spells, fun _ hvs hws => hws.unique hvs⟩

/-- A mark and what it stands before count as one form of a map, and a later entry under a key takes
the place of an earlier one. -/
theorem readAll_eq_ok_iff_spells_map :
    ∀ ws, Spells ((tokenize "\x7b'a ; 'a [^]\x7d -2/4").map Token.kind) ws ↔
      ws = [.map [(.list [.symbol "quote", .symbol "a"], .vector [.symbol "^"])],
        .number (.rational ⟨-1, 2⟩)] := by
  have hread : (readAll "\x7b'a ; 'a [^]\x7d -2/4").map (List.map Prod.fst) =
      .ok [.map [(.list [.symbol "quote", .symbol "a"], .vector [.symbol "^"])],
        .number (.rational ⟨-1, 2⟩)] := by cbv
  obtain ⟨hiff, hunique⟩ := readAll_eq_ok_iff_spells "\x7b'a ; 'a [^]\x7d -2/4"
    [.map [(.list [.symbol "quote", .symbol "a"], .vector [.symbol "^"])],
      .number (.rational ⟨-1, 2⟩)]
  intro ws
  constructor
  · exact hunique ws (hiff.mp hread)
  · rintro rfl
    exact hiff.mp hread

end MatrixLisp.Reader
