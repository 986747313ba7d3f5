import Mathlib.Tactic
import MatrixLisp.Proofs.Reachable

/-!
# Which values equal themselves

The distance of a float from itself is zero if it is finite and NaN otherwise, for an infinity as
well. A value that programs meet therefore equals itself exactly if all floats in it, at any depth,
are finite: a sequence and a map equal themselves if their items and values do, keys are forms and
always find their own entry, and a closure is compared by its identity only.
-/
namespace MatrixLisp

namespace Nearness

open Float.Model (Format UnpackedFloat)

theorem sub_self_of_not_isFinite (spec : Format) {u : UnpackedFloat} (h : u.isFinite = false) :
    UnpackedFloat.sub spec u u = .notANumber := by
  cases u with
  | notANumber => rfl
  | infinity s => cases s <;> rfl
  | _ => cases h

end Nearness

/-- An infinity is neither NaN nor finite. -/
theorem isNaN_isFinite_of_isInf {x : Float} (h : x.isInf = true) :
    x.isNaN = false ∧ x.isFinite = false := by
  rw [Float.isInf, Float.Model.isInf] at h
  rw [Float.isNaN, Float.Model.isNaN, Float.isFinite, Float.Model.isFinite]
  cases hx : x.toModel.unpack with
  | infinity s => exact ⟨rfl, rfl⟩
  | _ =>
    rw [hx] at h
    cases h

theorem nearlyEqual_self_iff {x : Float} : nearlyEqual x x = true ↔ x.isFinite = true := by
  refine ⟨fun h => ?_, nearlyEqual_self⟩
  cases hx : x.isFinite with
  | true => rfl
  | false =>
    have hsub : x - x = .ofModel (.pack .notANumber) :=
      congrArg (Float.ofModel ∘ Float.Model.pack) (Nearness.sub_self_of_not_isFinite .binary64 hx)
    have hnot : nearlyEqual x x = false := by
      rw [nearlyEqual, hsub]
      decide +kernel
    rw [hnot] at h
    cases h

theorem nearlyEqualFloats_self_iff {xs : Array Float} :
    nearlyEqualFloats xs xs = true ↔ ∀ x ∈ xs, x.isFinite = true := by
  refine ⟨fun h x hx => ?_, nearlyEqualFloats_self⟩
  rw [nearlyEqualFloats, beq_self_eq_true, Bool.true_and, List.and, List.all_eq_true,
    List.zipWith_self] at h
  exact nearlyEqual_self_iff.mp (h _ (List.mem_map_of_mem (by simpa using hx)))

namespace Value

theorem allFloats_of_isAtom {v : Value} (h : v.IsAtom) (hequal : v.equal v = true) :
    v.AllFloats (·.isFinite = true) := by
  cases v with
  | symbol name => exact .symbol name
  | number n =>
    refine .number fun x hx => ?_
    subst hx
    rw [equal] at hequal
    exact nearlyEqual_self_iff.mp hequal
  | bool b => exact .bool b
  | nil => exact .nil
  | builtin b => exact .builtin b
  | numVector v =>
    rw [equal] at hequal
    exact .numVector (nearlyEqualFloats_self_iff.mp hequal)
  | matrix m =>
    rw [equal, Matrix.nearlyEqual, Bool.and_eq_true] at hequal
    exact .matrix (nearlyEqualFloats_self_iff.mp hequal.2)
  | _ => cases h

/-- The value is an infinite float. -/
def isInfinity : Value → Bool
  | number (.float x) => x.isInf
  | _ => false

theorem isInfinity_iff {v : Value} :
    v.isInfinity = true ↔ ∃ x : Float, v = .float x ∧ x.isInf = true := by
  constructor
  · intro h
    unfold isInfinity at h
    split at h
    · exact ⟨_, rfl, h⟩
    · cases h
  · rintro ⟨x, rfl, hx⟩
    exact hx

/-- In a map that equals itself every value equals itself. -/
theorem equal_self_of_mem {d : Dict} (hdistinct : d.Distinct)
    (hforms : ∀ e ∈ d, Reader.IsForm e.1) (hequal : (map d).equal (map d) = true) :
    ∀ e ∈ d, e.2.equal e.2 = true := by
  intro e he
  obtain ⟨found, hfound, hself⟩ := (equal_map_iff.mp hequal).2 e he
  rw [hdistinct.find?_of_mem he (hforms e he).isKey_self] at hfound
  cases hfound
  exact hself

theorem Comparable.allFloats_of_equal_self {v : Value} (hv : v.Comparable)
    (hequal : v.equal v = true) : v.AllFloats (·.isFinite = true) := by
  induction v using parts_induction with
  | atom v hatom => exact allFloats_of_isAtom hatom hequal
  | list items ih =>
    rw [equal, equalItems_iff, List.forall₂_same] at hequal
    exact .list fun v hmem => ih v hmem (hv.items rfl v hmem) (hequal v hmem)
  | vector items ih =>
    rw [equal, equalItems_iff, List.forall₂_same] at hequal
    exact .vector fun v hmem => ih v hmem (hv.items rfl v hmem) (hequal v hmem)
  | map d ih =>
    obtain ⟨hdistinct, hforms, hvalues⟩ := hv.entries
    have hself := equal_self_of_mem hdistinct hforms hequal
    refine .map (fun e he => ?_) fun e he => (ih e he).2 (hvalues e he) (hself e he)
    obtain ⟨spelling, hdenotes, -⟩ := Reader.isForm_iff.mp (hforms e he)
    exact hdenotes.allFloats_isFinite
  | closure id params body scope => exact .closure id params body scope

end Value

namespace Session

open Run Eval

/-- A value that programs meet equals itself exactly if all floats in it are finite. -/
theorem equal_self_iff_of_reachable {v : Value} (h : Reachable v) :
    v.equal v = true ↔ v.AllFloats (·.isFinite = true) :=
  ⟨h.comparable.allFloats_of_equal_self, Value.equal_self h.comparable.wellFormed⟩

/-- A map that holds a vector of vectors. -/
theorem equal_self_iff_of_reachable_nested :
    ∃ v, Reachable v ∧ v = .map [(.symbol "k", .vector [.vector [.int 1], .nil])] ∧
      v.equal v = true := by
  let v : Value := .map [(.symbol "k", .vector [.vector [.int 1], .nil])]
  have hrun : run (evalDepth 9) ["\x7bk [[1] nil]\x7d"] (start 0) = ([.ok v], start 0) := by
    unfold v
    cbv
  have hreached : Reachable v :=
    .returned 9 (.ofSeed 0) ["\x7bk [[1] nil]\x7d"] (by rw [← start_eq, hrun]; exact List.mem_singleton_self _)
  refine ⟨v, hreached, rfl, (equal_self_iff_of_reachable hreached).mpr ?_⟩
  have hone : (Value.int 1).AllFloats (·.isFinite = true) := by
    refine .number fun x hx => ?_
    cases hx
  refine .map (by simpa using .symbol "k") ?_
  simp only [List.forall_mem_singleton]
  refine .vector ?_
  simp only [List.forall_mem_cons]
  exact ⟨.vector (by simpa using hone), .nil, List.forall_mem_nil _⟩

/-- A program squares a float until it is infinite, and meets a value without NaN that does not equal
itself. -/
theorem not_equal_self_infinity :
    ∃ x : Float, Reachable (.float x) ∧ x.isNaN = false ∧
      (Value.float x).equal (.float x) = false := by
  have hrun : (run (evalDepth 9)
      ["(let* (a 10000000000000000.0 b (* a a) c (* b b) d (* c c) e (* d d)) (* e e))"]
      (start 0)).1.any (·.toOption.any Value.isInfinity) = true := by
    decide +kernel
  obtain ⟨r, hmem, hr⟩ := List.any_eq_true.mp hrun
  cases r with
  | error halt => cases hr
  | ok v =>
    obtain ⟨x, rfl, hx⟩ := Value.isInfinity_iff.mp hr
    obtain ⟨hnan, hfinite⟩ := isNaN_isFinite_of_isInf hx
    have hequal : (Value.float x).equal (.float x) = nearlyEqual x x := by rw [Value.equal]; rfl
    refine ⟨x, .returned 9 (.ofSeed 0) _ hmem, hnan, ?_⟩
    rw [hequal, ← Bool.not_eq_true, nearlyEqual_self_iff, hfinite]
    exact Bool.false_ne_true

end Session

end MatrixLisp
