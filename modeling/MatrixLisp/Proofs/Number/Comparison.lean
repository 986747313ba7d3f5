import MatrixLisp.Proofs.Number.Order

/-!
# Comparison of exact numbers

Exact numbers are compared by cross products, which 128-bit words hold for all operands. The order is
that of the rational numbers that the numbers stand for, so the order relations are transitive and
total, and two numbers are in the order that the sign of their difference tells.
-/
namespace MatrixLisp

namespace Wide

/-- The order of fractions by cross products in wide words. -/
def compare? (p q : Rational) : Option Ordering := do
  return Ord.compare (← mul? p.numer.toInt q.denom.toInt) (← mul? q.numer.toInt p.denom.toInt)

/-- The order of numbers, if there is one. No result at all means that a product left the range. -/
def compareNumbers? (x y : Number) : Option (Option Ordering) :=
  match x.rational?, y.rational? with
  | some p, some q => (compare? p q).map some
  | _, _ => some (compareFloats? x.toFloat y.toFloat)

/-- No product leaves the range, whatever the parts of the fractions are. -/
theorem compare?_eq (p q : Rational) : compare? p q = some (p.compare q) := by
  rw [compare?, mul?_eq, mul?_eq]
  rfl

theorem compareNumbers?_eq (x y : Number) : compareNumbers? x y = some (x.compare? y) := by
  rw [compareNumbers?, Number.compare?]
  cases x.rational? with
  | none => rfl
  | some p =>
    cases y.rational? with
    | none => rfl
    | some q => exact congrArg (Option.map some) (compare?_eq p q)

end Wide

/-- The relation holds between two numbers: its operator gives true. -/
def Relation.Related (r : Relation) (x y : Number) : Prop :=
  Value.binary (.relation r) (.number x) (.number y) = .ok (.bool true)

namespace Number

variable {x y z : Number} {a b : ℚ}

theorem Denotes.related_iff (hx : x.Denotes a) (hy : y.Denotes b) (r : Relation) :
    r.Related x y ↔ r.holds (compare a b) = true := by
  rw [Relation.Related, Value.binary_relation_eq hx hy]
  simp

theorem Denotes.less_iff (hx : x.Denotes a) (hy : y.Denotes b) :
    Relation.less.Related x y ↔ a < b := by
  rw [hx.related_iff hy, Relation.holds, Ordering.isLT_iff_eq_lt, compare_lt_iff_lt]

theorem Denotes.lessEqual_iff (hx : x.Denotes a) (hy : y.Denotes b) :
    Relation.lessEqual.Related x y ↔ a ≤ b := by
  rw [hx.related_iff hy, Relation.holds, Ordering.isLE_iff_ne_gt, ← compare_le_iff_le]

theorem Denotes.compare?_eq_eq_iff (hx : x.Denotes a) (hy : y.Denotes b) :
    x.compare? y = some .eq ↔ a = b := by
  rw [hx.compare?_eq hy, Option.some_inj, compare_eq_iff_eq]

/-- A difference that is not too wide stands for the difference of the numbers. -/
theorem Denotes.sub (hx : x.Denotes a) (hy : y.Denotes b) (h : apply .sub x y = .ok z) :
    z.Denotes (a - b) :=
  ((apply_exact .sub hx hy).1 z h).1

/-- Comparison of exact numbers is exact, and no product on the way is too wide. Less than is
transitive and holds one way or the other between numbers that are not compared as equal, less or
equal is transitive and total, and both agree with the sign of a difference. -/
theorem compare?_exact (hx : x.Denotes a) (hy : y.Denotes b) :
    x.compare? y = some (compare a b) ∧
    Wide.compareNumbers? x y = some (x.compare? y) ∧
    (Relation.less.Related x y ∨ x.compare? y = some .eq ∨ Relation.less.Related y x) ∧
    (Relation.lessEqual.Related x y ∨ Relation.lessEqual.Related y x) ∧
    (∀ w c, w.Denotes c →
      (Relation.less.Related x y → Relation.less.Related y w → Relation.less.Related x w) ∧
      (Relation.lessEqual.Related x y → Relation.lessEqual.Related y w →
        Relation.lessEqual.Related x w)) ∧
    ∀ z, apply .sub x y = .ok z → ∃ d, z.Denotes d ∧
      (Relation.less.Related x y ↔ d < 0) ∧ (x.compare? y = some .eq ↔ d = 0) := by
  refine ⟨hx.compare?_eq hy, Wide.compareNumbers?_eq x y, ?_, ?_, fun w c hw => ⟨?_, ?_⟩, ?_⟩
  · rw [hx.less_iff hy, hy.less_iff hx, hx.compare?_eq_eq_iff hy]
    exact lt_trichotomy a b
  · rw [hx.lessEqual_iff hy, hy.lessEqual_iff hx]
    exact le_total a b
  · rw [hx.less_iff hy, hy.less_iff hw, hx.less_iff hw]
    exact lt_trans
  · rw [hx.lessEqual_iff hy, hy.lessEqual_iff hw, hx.lessEqual_iff hw]
    exact le_trans
  · intro z hz
    refine ⟨a - b, hx.sub hy hz, ?_, ?_⟩
    · rw [hx.less_iff hy, sub_neg]
    · rw [hx.compare?_eq_eq_iff hy, sub_eq_zero]

/-- Half of the least odd integer, one half and the greatest integer: the difference of the first two
fits only in lowest terms. -/
theorem compare?_exact_minValue :
    (rational ⟨-9223372036854775807, 2⟩).Denotes (-9223372036854775807 / 2) ∧
    (rational ⟨1, 2⟩).Denotes (1 / 2) ∧
    (int Int64.maxValue).Denotes 9223372036854775807 ∧
    Relation.less.Related (rational ⟨-9223372036854775807, 2⟩) (rational ⟨1, 2⟩) ∧
    Relation.less.Related (rational ⟨1, 2⟩) (int Int64.maxValue) ∧
    Relation.less.Related (rational ⟨-9223372036854775807, 2⟩) (int Int64.maxValue) ∧
    apply .sub (rational ⟨-9223372036854775807, 2⟩) (rational ⟨1, 2⟩) =
      .ok (rational ⟨-4611686018427387904, 1⟩) ∧
    ∃ d, (rational ⟨-4611686018427387904, 1⟩).Denotes d ∧ d < 0 := by
  have hleast : (-9223372036854775807 : Int64).toInt = -9223372036854775807 := by decide
  have hgreatest : Int64.maxValue.toInt = 9223372036854775807 := by decide
  have htwo : (2 : Int64).toInt = 2 := by decide
  have hone : (1 : Int64).toInt = 1 := by decide
  have hx : (rational ⟨-9223372036854775807, 2⟩).Denotes (-9223372036854775807 / 2) :=
    denotes_of_rational ⟨⟨by decide, by decide⟩, by norm_num [Rational.value, hleast, htwo]⟩
  have hy : (rational ⟨1, 2⟩).Denotes (1 / 2) :=
    denotes_of_rational ⟨⟨by decide, by decide⟩, by norm_num [Rational.value, hone, htwo]⟩
  have hw : (int Int64.maxValue).Denotes 9223372036854775807 := by
    simpa [hgreatest] using Denotes.int Int64.maxValue
  have hsub : apply .sub (rational ⟨-9223372036854775807, 2⟩) (rational ⟨1, 2⟩) =
      .ok (rational ⟨-4611686018427387904, 1⟩) := rfl
  obtain ⟨-, -, -, -, htrans, hdifference⟩ := compare?_exact hx hy
  have hless := (hx.less_iff hy).mpr (by norm_num)
  have hless' := (hy.less_iff hw).mpr (by norm_num)
  obtain ⟨d, hd, hsign, -⟩ := hdifference _ hsub
  exact ⟨hx, hy, hw, hless, hless', (htrans _ _ hw).1 hless hless', hsub, d, hd, hsign.mp hless⟩

end Number

end MatrixLisp
