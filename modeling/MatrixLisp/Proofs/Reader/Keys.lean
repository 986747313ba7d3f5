import Mathlib.Tactic
import MatrixLisp.Proofs.Reader.Printed
import MatrixLisp.Proofs.Reader.WellFormed
import MatrixLisp.Proofs.Value.Equality

/-!
# Forms as keys

All numbers in a form are finite, so a form equals itself. As different forms have different texts, a
form stands for another key of this kind exactly if the two have the same text. The parts of a form
are forms.
-/
namespace MatrixLisp.Reader

open Token

/-- Whatever is read, its floats are finite. -/
theorem Denotes.allFloats_isFinite {spelling : List TokenKind} {v : Value}
    (h : Denotes spelling v) : v.AllFloats (·.isFinite = true) := by
  induction h with
  | atom hs =>
    obtain ⟨q, rfl, -⟩ | ⟨x, rfl, hx⟩ | ⟨n, rfl⟩ | rfl := Literal.classify_cases hs
    · exact .number nofun
    · refine .number fun y hy => ?_
      cases hy
      exact hx
    · exact .number nofun
    · exact .symbol _
  | string s => exact .symbol s
  | caret => exact .symbol _
  | semicolon => exact .symbol _
  | list _ ih => exact .list (Parts.forall_values ih)
  | vector _ ih => exact .vector (Parts.forall_values ih)
  | map _ _ ih =>
    have hentries := Dict.forall_ofList (Dict.forall_pairs (Parts.forall_values ih))
    exact .map (fun e he => (hentries e he).1) fun e he => (hentries e he).2
  | mark m _ ih =>
    refine .list fun v hv => ?_
    rcases List.mem_cons.mp hv with rfl | hv
    · exact .symbol _
    · rw [List.mem_singleton.mp hv]
      exact ih

namespace IsForm

variable {v w : Value}

theorem wellFormed (h : IsForm v) : v.WellFormed := by
  obtain ⟨spelling, hdenotes, -⟩ := isForm_iff.mp h
  exact hdenotes.wellFormed

theorem equal_self (h : IsForm v) : v.equal v = true := by
  obtain ⟨spelling, hdenotes, -⟩ := isForm_iff.mp h
  exact Value.equal_self hdenotes.wellFormed hdenotes.allFloats_isFinite

theorem isKey_self (h : IsForm v) : Dict.isKey v v = true := by
  simp [Dict.isKey, h.equal_self]

/-- Forms stand for each other as keys if their texts are the same. -/
theorem isKey_iff (hv : IsForm v) (hw : IsForm w) :
    Dict.isKey v w = true ↔ v.render = w.render := by
  constructor
  · intro h
    rw [Dict.isKey, Bool.and_eq_true, beq_iff_eq] at h
    exact h.2
  · intro h
    rw [← hv.render_injective hw h]
    exact hv.isKey_self

theorem forall_of_denotes {parts : Parts} (hparts : ∀ p ∈ parts, Denotes p.1 p.2) {opener : TokenKind}
    {after : List TokenKind} (hlex : ∀ kind ∈ opener :: parts.spelling ++ after, IsLexeme kind) :
    ∀ v ∈ parts.values, IsForm v :=
  Parts.forall_values fun p hp =>
    isForm_iff.mpr ⟨p.1, hparts p hp, Parts.forall_spelling hlex hp⟩

theorem items (h : IsForm v) {items : List Value} (hitems : v.items? = some items) :
    ∀ item ∈ items, IsForm item := by
  obtain ⟨spelling, hdenotes, hlex⟩ := isForm_iff.mp h
  cases hdenotes with
  | atom hs =>
    obtain ⟨q, rfl, -⟩ | ⟨x, rfl, -⟩ | ⟨n, rfl⟩ | rfl := Literal.classify_cases hs <;> cases hitems
  | list hparts =>
    cases hitems
    exact forall_of_denotes hparts hlex
  | vector hparts =>
    cases hitems
    exact forall_of_denotes hparts hlex
  | @mark m spelling w hw =>
    cases hitems
    intro item hitem
    rcases List.mem_cons.mp hitem with rfl | hitem
    · exact isForm_iff.mpr ⟨[.atom m.symbol], .atom (classify_symbol m), by simp [isLexeme_symbol m]⟩
    · rw [List.mem_singleton.mp hitem]
      exact isForm_iff.mpr ⟨spelling, hw, fun kind hkind => hlex kind (by simp [hkind])⟩
  | _ => cases hitems

theorem entries {entries : Dict} (h : IsForm (.map entries)) :
    ∀ e ∈ entries, IsForm e.1 ∧ IsForm e.2 := by
  obtain ⟨spelling, hdenotes, hlex⟩ := isForm_iff.mp h
  generalize hv : Value.map entries = v at hdenotes
  cases hdenotes with
  | atom hs =>
    obtain ⟨q, rfl, -⟩ | ⟨x, rfl, -⟩ | ⟨n, rfl⟩ | rfl := Literal.classify_cases hs <;> cases hv
  | map hparts _ =>
    cases hv
    exact Dict.forall_ofList (Dict.forall_pairs (forall_of_denotes hparts hlex))
  | _ => cases hv

/-- No text is read as a closure. -/
theorem ne_closure (h : IsForm v) (id : ℕ) (params : List Value) (body : Value) (scope : Scope) :
    v ≠ .closure id params body scope := by
  obtain ⟨spelling, hdenotes, -⟩ := isForm_iff.mp h
  cases hdenotes with
  | atom hs =>
    obtain ⟨q, rfl, -⟩ | ⟨x, rfl, -⟩ | ⟨n, rfl⟩ | rfl := Literal.classify_cases hs
    all_goals exact nofun
  | _ => exact nofun

end IsForm

end MatrixLisp.Reader
