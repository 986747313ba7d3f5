import Mathlib.Tactic
import MatrixLisp.Proofs.Number.Nearness
import MatrixLisp.Proofs.Value.WellFormed

/-!
# Equality of values

Sequences are equal if their items are, position by position. A map equals another of the same size
if every entry finds an equal value under its key. A well-formed value equals itself if all floats in
it are finite: a number that is not has no distance from itself.
-/
namespace MatrixLisp

namespace Value

theorem equalItems_iff {xs ys : List Value} :
    equalItems xs ys = true ↔ List.Forall₂ (fun x y => x.equal y = true) xs ys := by
  induction xs generalizing ys with
  | nil => cases ys <;> simp [equalItems]
  | cons x xs ih =>
    cases ys with
    | nil => simp [equalItems]
    | cons y ys => rw [equalItems, Bool.and_eq_true, ih, List.forall₂_cons]

/-- A key holds a value if what is found under it is equal to the value. -/
theorem holds_iff {d : Dict} {key value : Value} :
    holds d key value = true ↔ ∃ found, d.find? key = some found ∧ found.equal value = true := by
  induction d with
  | nil => simp [holds, Dict.find?]
  | cons e rest ih =>
    rw [holds, Dict.find?_cons, ← Dict.isKey]
    split_ifs
    · simp
    · exact ih

theorem equal_map_iff {d e : Dict} :
    (map d).equal (map e) = true ↔
      d.length = e.length ∧ ∀ x ∈ d, ∃ found, e.find? x.1 = some found ∧ found.equal x.2 = true := by
  have hentries : ∀ d : Dict, equalEntries d e = true ↔
      ∀ x ∈ d, ∃ found, e.find? x.1 = some found ∧ found.equal x.2 = true := by
    intro d
    induction d with
    | nil => simp [equalEntries]
    | cons x rest ih => rw [equalEntries, Bool.and_eq_true, holds_iff, ih, List.forall_mem_cons]
  rw [equal, Bool.and_eq_true, beq_iff_eq, hentries]

/-- All floats in the numbers, vectors and matrices of a value are as described. What a closure
refers to does not count. -/
inductive AllFloats (P : Float → Prop) : Value → Prop
  | symbol (name : String) : AllFloats P (.symbol name)
  | number {n : Number} : (∀ x, n = .float x → P x) → AllFloats P (.number n)
  | bool (b : Bool) : AllFloats P (.bool b)
  | nil : AllFloats P .nil
  | list {items : List Value} : (∀ v ∈ items, AllFloats P v) → AllFloats P (.list items)
  | vector {items : List Value} : (∀ v ∈ items, AllFloats P v) → AllFloats P (.vector items)
  | map {entries : List (Value × Value)} : (∀ e ∈ entries, AllFloats P e.1) →
      (∀ e ∈ entries, AllFloats P e.2) → AllFloats P (.map entries)
  | builtin (b : Builtin) : AllFloats P (.builtin b)
  | closure (id : Nat) (params : List Value) (body : Value) (scope : Scope) :
      AllFloats P (.closure id params body scope)
  | numVector {v : NumVector} : (∀ x ∈ v.data, P x) → AllFloats P (.numVector v)
  | matrix {m : Matrix} : (∀ x ∈ m.data, P x) → AllFloats P (.matrix m)

end Value

/-- In a dictionary without repeated keys, a key that stands for itself finds its value. -/
theorem Dict.Distinct.find?_of_mem {d : Dict} (h : d.Distinct) {e : Value × Value} (he : e ∈ d)
    (hself : isKey e.1 e.1 = true) : d.find? e.1 = some e.2 := by
  induction d with
  | nil => cases he
  | cons first rest ih =>
    obtain ⟨hfirst, hrest⟩ := List.pairwise_cons.mp h
    rw [find?_cons]
    rcases List.mem_cons.mp he with rfl | he
    · rw [if_pos hself]
    · rw [hfirst e he, if_neg Bool.false_ne_true, ih hrest he]

theorem nearlyEqualFloats_self {xs : Array Float} (h : ∀ x ∈ xs, x.isFinite = true) :
    nearlyEqualFloats xs xs = true := by
  have hnear : ∀ b ∈ List.zipWith nearlyEqual xs.toList xs.toList, b = true := by
    rw [List.zipWith_self]
    intro b hb
    obtain ⟨x, hx, rfl⟩ := List.mem_map.mp hb
    exact nearlyEqual_self (h x (by simpa using hx))
  rw [nearlyEqualFloats, beq_self_eq_true, Bool.true_and, List.and, List.all_eq_true]
  exact hnear

namespace Value

theorem equal_self {v : Value} (hv : v.WellFormed) (hfinite : v.AllFloats (·.isFinite = true)) :
    v.equal v = true := by
  induction hv with
  | symbol => simp [equal]
  | @number n _ =>
    rw [equal]
    cases hfinite with
    | number hn =>
      cases n with
      | int => simp [Number.equal]
      | rational => simp [Number.equal]
      | float x => exact nearlyEqual_self (hn x rfl)
  | bool => simp [equal]
  | nil => simp [equal]
  | list _ ih =>
    cases hfinite with
    | list hitems =>
      rw [equal, equalItems_iff, List.forall₂_same]
      exact fun v hv => ih v hv (hitems v hv)
  | vector _ ih =>
    cases hfinite with
    | vector hitems =>
      rw [equal, equalItems_iff, List.forall₂_same]
      exact fun v hv => ih v hv (hitems v hv)
  | map hdistinct _ _ ihkey ihvalue =>
    cases hfinite with
    | map hkeys hvalues =>
      refine equal_map_iff.mpr ⟨rfl, fun e he => ⟨e.2, ?_, ihvalue e he (hvalues e he)⟩⟩
      apply hdistinct.find?_of_mem he
      simp [Dict.isKey, ihkey e he (hkeys e he)]
  | builtin => simp [equal]
  | closure => simp [equal]
  | numVector v =>
    cases hfinite with
    | numVector h =>
      rw [equal]
      exact nearlyEqualFloats_self h
  | matrix _ =>
    cases hfinite with
    | matrix h =>
      rw [equal, Matrix.nearlyEqual, nearlyEqualFloats_self h]
      simp

end Value

end MatrixLisp
