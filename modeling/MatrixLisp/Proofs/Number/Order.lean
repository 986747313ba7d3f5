import MatrixLisp.Proofs.Number.Exact
import MatrixLisp.Proofs.Number.Whole
import MatrixLisp.Value.Operator

/-!
# Order and equality of exact numbers

The order of exact numbers is that of the rational numbers they stand for, since cross products with
positive denominators keep the order. Equality is exact between two integers and between two
fractions, but an integer and a fraction are compared as floats up to the tolerance: they are equal
if they stand for one number, and also if their floats are merely near each other.
-/
namespace MatrixLisp

namespace Rational

/-- Cross products are in the order of the values. -/
theorem compare_eq {p q : Rational} (hp : p.WellFormed) (hq : q.WellFormed) :
    p.compare q = Ord.compare p.value q.value := by
  have hp' : (0 : ℚ) < p.denom.toInt := by exact_mod_cast hp.denom_pos
  have hq' : (0 : ℚ) < q.denom.toInt := by exact_mod_cast hq.denom_pos
  rw [compare]
  obtain h | h | h := lt_trichotomy p.value q.value
  · rw [compare_lt_iff_lt.mpr h, compare_lt_iff_lt]
    exact_mod_cast (div_lt_div_iff₀ hp' hq').mp h
  · rw [compare_eq_iff_eq.mpr h, compare_eq_iff_eq]
    exact_mod_cast (div_eq_div_iff hp'.ne' hq'.ne').mp h
  · rw [compare_gt_iff_gt.mpr h, compare_gt_iff_gt]
    exact_mod_cast (div_lt_div_iff₀ hq' hp').mp h

end Rational

namespace Number

variable {x y : Number} {a b : ℚ}

/-- The order of exact numbers is that of what they stand for. -/
theorem Denotes.compare?_eq (hx : x.Denotes a) (hy : y.Denotes b) :
    x.compare? y = some (Ord.compare a b) := by
  obtain ⟨p, hxp, hp, rfl⟩ := hx.exists_rational
  obtain ⟨q, hyq, hq, rfl⟩ := hy.exists_rational
  rw [compare?, hxp, hyq]
  exact congrArg some (Rational.compare_eq hp hq)

/-- One number is an integer, the other is none, and their floats are within the tolerance. -/
def Blurred (x y : Number) : Prop :=
  x.isInt ≠ y.isInt ∧ nearlyEqual x.toFloat y.toFloat = true

theorem blurred_comm : x.Blurred y ↔ y.Blurred x := by
  rw [Blurred, Blurred, ne_comm, MatrixLisp.nearlyEqual_comm]

/-- An integer and a fraction that stand for one number have one float. -/
theorem nearlyEqual_of_toInt_eq_value {n : Int64} {q : Rational} (hq : q.WellFormed)
    (h : (n.toInt : ℚ) = q.value) : nearlyEqual (Float.ofInt n.toInt) q.toFloat = true := by
  rw [← Rational.value_ofInt64, ← Rational.eq_iff_value_eq (Rational.wellFormed_ofInt64 n) hq] at h
  rw [← h, Rational.toFloat_ofInt64]
  exact nearlyEqual_self (isFinite_ofInt_toInt n)

theorem equal_int_rational_iff {n : Int64} {q : Rational} (hq : q.WellFormed) :
    (int n).equal (rational q) = true ↔
      (n.toInt : ℚ) = q.value ∨ (int n).Blurred (rational q) := by
  have hequal : (int n).equal (rational q) = nearlyEqual (int n).toFloat (rational q).toFloat := rfl
  rw [hequal, Blurred, isInt_int, isInt_rational]
  constructor
  · intro h
    exact Or.inr ⟨by decide, h⟩
  · rintro (h | h)
    · exact nearlyEqual_of_toInt_eq_value hq h
    · exact h.2

/-- Equality holds where the order says so, and between blurred numbers. -/
theorem Denotes.equal_iff (hx : x.Denotes a) (hy : y.Denotes b) :
    x.equal y = true ↔ a = b ∨ x.Blurred y := by
  cases hx with
  | int m =>
    cases hy with
    | int n => simp [equal, Blurred, Int64.toInt_inj]
    | rational hq => exact equal_int_rational_iff hq
  | rational hp =>
    cases hy with
    | int n =>
      rw [Number.equal_comm, blurred_comm, eq_comm (b := (n.toInt : ℚ))]
      exact equal_int_rational_iff hp
    | rational hq => simp [equal, Blurred, Rational.eq_iff_value_eq hp hq]

end Number

namespace Value

variable {x y : Number} {a b : ℚ}

theorem binary_relation_eq (hx : x.Denotes a) (hy : y.Denotes b) (r : Relation) :
    binary (.relation r) (.number x) (.number y) = .ok (.bool (r.holds (compare a b))) := by
  rw [binary, relate, hx.compare?_eq hy]
  rfl

theorem binary_equal_eq (x y : Number) :
    binary .equal (.number x) (.number y) = .ok (.bool (x.equal y)) := by
  rw [binary, equal]

/-- Of two exact numbers exactly one is less, equal or greater, and less or equal means less or
equal. Only blurred numbers that stand for different numbers count as equal besides being less or
greater; less or equal then goes by the order. -/
theorem binary_trichotomy (hx : x.Denotes a) (hy : y.Denotes b) :
    ∃ less equal greater lessEqual : Bool,
      binary (.relation .less) (.number x) (.number y) = .ok (.bool less) ∧
      binary .equal (.number x) (.number y) = .ok (.bool equal) ∧
      binary (.relation .greater) (.number x) (.number y) = .ok (.bool greater) ∧
      binary (.relation .lessEqual) (.number x) (.number y) = .ok (.bool lessEqual) ∧
      (a = b ∨ ¬x.Blurred y → [less, equal, greater].count true = 1 ∧
        (lessEqual = true ↔ less = true ∨ equal = true)) ∧
      (a ≠ b ∧ x.Blurred y → equal = true ∧ [less, greater].count true = 1 ∧
        lessEqual = less) := by
  have hequal := hx.equal_iff hy
  refine ⟨_, _, _, _, binary_relation_eq hx hy .less, binary_equal_eq x y,
    binary_relation_eq hx hy .greater, binary_relation_eq hx hy .lessEqual, ?_, ?_⟩
  · intro hclear
    have heq : x.equal y = decide (a = b) := by
      rw [Bool.eq_iff_iff, decide_eq_true_iff, hequal]
      tauto
    rw [heq]
    obtain h | h | h := lt_trichotomy a b
    · rw [compare_lt_iff_lt.mpr h, decide_eq_false h.ne]
      decide
    · rw [compare_eq_iff_eq.mpr h, decide_eq_true h]
      decide
    · rw [compare_gt_iff_gt.mpr h, decide_eq_false h.ne']
      decide
  · rintro ⟨hne, hblurred⟩
    refine ⟨hequal.mpr (Or.inr hblurred), ?_⟩
    obtain h | h := lt_or_gt_of_ne hne
    · rw [compare_lt_iff_lt.mpr h]
      decide
    · rw [compare_gt_iff_gt.mpr h]
      decide

/-- An integer that no float represents, and the same integer as a fraction. -/
theorem binary_trichotomy_whole :
    (Number.int 9007199254740993).Denotes 9007199254740993 ∧
      (Number.rational ⟨9007199254740993, 1⟩).Denotes 9007199254740993 ∧
      ∃ less equal greater lessEqual : Bool,
        binary (.relation .less) (.number (.int 9007199254740993))
          (.number (.rational ⟨9007199254740993, 1⟩)) = .ok (.bool less) ∧
        binary .equal (.number (.int 9007199254740993))
          (.number (.rational ⟨9007199254740993, 1⟩)) = .ok (.bool equal) ∧
        binary (.relation .greater) (.number (.int 9007199254740993))
          (.number (.rational ⟨9007199254740993, 1⟩)) = .ok (.bool greater) ∧
        binary (.relation .lessEqual) (.number (.int 9007199254740993))
          (.number (.rational ⟨9007199254740993, 1⟩)) = .ok (.bool lessEqual) ∧
        [less, equal, greater].count true = 1 ∧
        (lessEqual = true ↔ less = true ∨ equal = true) := by
  have hvalue : (((9007199254740993 : Int64).toInt : ℤ) : ℚ) = 9007199254740993 := by
    rw [show (9007199254740993 : Int64).toInt = 9007199254740993 by decide]
    norm_num
  have hx : (Number.int 9007199254740993).Denotes 9007199254740993 := hvalue ▸ .int _
  have hy : (Number.rational ⟨9007199254740993, 1⟩).Denotes 9007199254740993 :=
    Number.denotes_of_rational
      ⟨Rational.wellFormed_ofInt64 _, (Rational.value_ofInt64 _).trans hvalue⟩
  obtain ⟨less, equal, greater, lessEqual, hless, hequal, hgreater, hle, hclear, -⟩ :=
    binary_trichotomy hx hy
  exact ⟨hx, hy, less, equal, greater, lessEqual, hless, hequal, hgreater, hle,
    hclear (Or.inl rfl)⟩

/-- Zero is less than a fraction very near to it, and equal to it. -/
theorem less_and_equal :
    (Number.int 0).Denotes 0 ∧
      (Number.rational ⟨1, 10000000000000000⟩).Denotes (1 / 10000000000000000) ∧
      binary (.relation .less) (.number (.int 0)) (.number (.rational ⟨1, 10000000000000000⟩)) =
        .ok (.bool true) ∧
      binary .equal (.number (.int 0)) (.number (.rational ⟨1, 10000000000000000⟩)) =
        .ok (.bool true) := by
  have hx : (Number.int 0).Denotes 0 := by simpa using Number.Denotes.int 0
  have hvalue : Rational.value ⟨1, 10000000000000000⟩ = 1 / 10000000000000000 := by
    rw [Rational.value, show (1 : Int64).toInt = 1 by decide,
      show (10000000000000000 : Int64).toInt = 10000000000000000 by decide]
    norm_num
  have hy : (Number.rational ⟨1, 10000000000000000⟩).Denotes (1 / 10000000000000000) :=
    Number.denotes_of_rational ⟨⟨by decide, by decide⟩, hvalue⟩
  refine ⟨hx, hy, ?_, ?_⟩
  · rw [binary_relation_eq hx hy, compare_lt_iff_lt.mpr (by norm_num)]
    rfl
  · rw [binary_equal_eq]
    refine congrArg (Except.ok ∘ Value.bool) ?_
    show nearlyEqual (Float.ofInt 0) (Rational.toFloat ⟨1, 10000000000000000⟩) = true
    decide +kernel

end Value

end MatrixLisp
