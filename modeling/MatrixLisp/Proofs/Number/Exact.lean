import Mathlib.Tactic
import MatrixLisp.Proofs.Number.Wide

/-!
# Exact arithmetic

Integers and fractions in lowest terms denote rational numbers. Arithmetic on them computes the
result of the same operation on rational numbers, or fails: by zero, or when the exact result has no
place in 64 bits. There is no third way to fail, and an intermediate result never leaves the range
of 128-bit words.
-/
namespace MatrixLisp

/-- The operator on rational numbers. -/
def Arith.onRat : Arith → ℚ → ℚ → ℚ
  | add, a, b => a + b
  | sub, a, b => a - b
  | mul, a, b => a * b
  | div, a, b => a / b

namespace Number

/-- An exact number, in lowest terms, and the rational number that it stands for. -/
inductive Denotes : Number → ℚ → Prop
  | int (n : Int64) : Denotes (.int n) n.toInt
  | rational {q : Rational} (h : q.WellFormed) : Denotes (.rational q) q.value

/-- Whether a number is an integer by its type. -/
def isInt : Number → Bool
  | int _ => true
  | _ => false

@[simp] theorem isInt_int (n : Int64) : (int n).isInt = true := rfl

@[simp] theorem isInt_rational (q : Rational) : (rational q).isInt = false := rfl

/-- The fraction that an exact number is taken as. -/
theorem Denotes.exists_rational {x : Number} {a : ℚ} (h : x.Denotes a) :
    ∃ p, x.rational? = some p ∧ p.WellFormed ∧ p.value = a := by
  cases h with
  | int n => exact ⟨.ofInt64 n, rfl, Rational.wellFormed_ofInt64 n, Rational.value_ofInt64 n⟩
  | rational h => exact ⟨_, rfl, h, rfl⟩

end Number

namespace Rational

theorem apply_settled (op : Arith) {p q : Rational} (hp : p.WellFormed) (hq : q.WellFormed) :
    Settled (apply op p q) (op = .div ∧ q.value = 0) (Representable (op.onRat p.value q.value))
      fun z => z.WellFormed ∧ z.value = op.onRat p.value q.value := by
  have hp0 := hp.denom_ne_zero
  have hq0 := hq.denom_ne_zero
  have hden : p.denom.toInt * q.denom.toInt ≠ 0 := (mul_pos hp.denom_pos hq.denom_pos).ne'
  cases op with
  | add =>
    refine ofFraction_settled_of_eq hden (by simp) ?_
    simp only [Arith.onRat, value]
    push_cast
    field_simp
  | sub =>
    refine ofFraction_settled_of_eq hden (by simp) ?_
    simp only [Arith.onRat, value]
    push_cast
    field_simp
  | mul =>
    refine ofFraction_settled_of_eq hden (by simp) ?_
    simp only [Arith.onRat, value]
    push_cast
    field_simp
  | div =>
    have hzero := value_eq_zero_iff hq
    by_cases hz : q.isZero = true
    · rw [apply, div, if_pos hz]
      exact Or.inl ⟨⟨rfl, hzero.mpr hz⟩, rfl⟩
    · have hv : q.value ≠ 0 := fun h => hz (hzero.mp h)
      have hn : q.numer.toInt ≠ 0 := by
        intro h
        exact hv (by simp [value, h])
      rw [apply, div, if_neg hz]
      refine ofFraction_settled_of_eq (mul_ne_zero hp.denom_pos.ne' hn) (fun h => hv h.2) ?_
      simp only [Arith.onRat, value]
      push_cast
      field_simp

end Rational

namespace Number

theorem denotes_of_rational {z : Rational} {r : ℚ} (h : z.WellFormed ∧ z.value = r) :
    (rational z).Denotes r := by
  rw [← h.2]
  exact .rational h.1

theorem ofResult_settled (op : Arith) (a b : Int64) {n : ℤ} {r : ℚ} {zero : Prop} (hz : ¬zero)
    (hr : (n : ℚ) = r) :
    Settled (ofResult op a b n) zero (Representable r)
      fun z => z.Denotes r ∧ z.isInt = true := by
  have hfits : Representable r ↔ FitsInt64 n := by
    rw [← hr]
    simp [Representable, FitsInt64]
  unfold ofResult
  split
  · rename_i w hw
    rw [int64?_eq_some_iff] at hw
    refine ⟨hz, ?_, ?_, rfl⟩
    · rw [hfits, ← hw]
      exact fitsInt64_toInt w
    · rw [← hr, ← hw]
      exact .int w
  · rename_i hnone
    exact Or.inr ⟨hz, fun h => int64?_eq_none_iff_not_fits.mp hnone (hfits.mp h), rfl⟩

/-- Two integers give an integer, except under division. -/
theorem applyInts_settled (op : Arith) (a b : Int64) :
    Settled (applyInts op a b) (op = .div ∧ (b.toInt : ℚ) = 0)
      (Representable (op.onRat a.toInt b.toInt))
      fun z => z.Denotes (op.onRat a.toInt b.toInt) ∧ (z.isInt = true ↔ op ≠ .div) := by
  cases op with
  | add => simpa [applyInts] using ofResult_settled .add a b (by simp) (by simp [Arith.onRat])
  | sub => simpa [applyInts] using ofResult_settled .sub a b (by simp) (by simp [Arith.onRat])
  | mul => simpa [applyInts] using ofResult_settled .mul a b (by simp) (by simp [Arith.onRat])
  | div =>
    have hzero : b = 0 ↔ (b.toInt : ℚ) = 0 := by
      rw [Int.cast_eq_zero, ← Int64.toInt_zero, Int64.toInt_inj]
    by_cases hb : b = 0
    · rw [applyInts, if_pos hb]
      exact Or.inl ⟨⟨rfl, hzero.mp hb⟩, rfl⟩
    · have hb' : (b.toInt : ℚ) ≠ 0 := fun h => hb (hzero.mpr h)
      rw [applyInts, if_neg hb]
      refine (Rational.ofFraction_settled_of_eq (by exact_mod_cast hb') (fun h => hb' h.2) rfl).map ?_
      intro z hz
      exact ⟨denotes_of_rational hz, by simp⟩

/-- A fraction on either side makes both operands fractions. -/
theorem apply_eq_of_rational? (op : Arith) {x y : Number} {p q : Rational}
    (hint : ¬(x.isInt = true ∧ y.isInt = true)) (hx : x.rational? = some p)
    (hy : y.rational? = some q) : apply op x y = (Rational.apply op p q).map rational := by
  cases x <;> cases y <;> simp_all [apply, isInt, rational?]

theorem apply_settled (op : Arith) {x y : Number} {a b : ℚ} (hx : x.Denotes a) (hy : y.Denotes b) :
    Settled (apply op x y) (op = .div ∧ b = 0) (Representable (op.onRat a b))
      fun z => z.Denotes (op.onRat a b) ∧
        (z.isInt = true ↔ x.isInt = true ∧ y.isInt = true ∧ op ≠ .div) := by
  by_cases hint : x.isInt = true ∧ y.isInt = true
  · cases hx with
    | rational => exact absurd hint.1 (by simp)
    | int m =>
      cases hy with
      | rational => exact absurd hint.2 (by simp)
      | int n => simpa [apply] using applyInts_settled op m n
  · obtain ⟨p, hxp, hp, rfl⟩ := hx.exists_rational
    obtain ⟨q, hyq, hq, rfl⟩ := hy.exists_rational
    rw [apply_eq_of_rational? op hint hxp hyq]
    refine (Rational.apply_settled op hp hq).map ?_
    intro z hz
    refine ⟨denotes_of_rational hz, ?_⟩
    constructor
    · intro h
      cases h
    · intro h
      exact absurd ⟨h.1, h.2.1⟩ hint

theorem applyNumbers?_eq (op : Arith) {x y : Number} {a b : ℚ} (hx : x.Denotes a)
    (hy : y.Denotes b) : Wide.applyNumbers? op x y = some (apply op x y) := by
  by_cases hint : x.isInt = true ∧ y.isInt = true
  · cases hx with
    | rational => exact absurd hint.1 (by simp)
    | int m =>
      cases hy with
      | rational => exact absurd hint.2 (by simp)
      | int n =>
        cases op with
        | div =>
          have h := Wide.reduce?_eq (Wide.symmetric_toInt m) (Wide.symmetric_toInt n)
          simp only [Wide.applyNumbers?, apply, applyInts, h]
          split_ifs <;> rfl
        | _ => rfl
  · obtain ⟨p, hxp, hp, rfl⟩ := hx.exists_rational
    obtain ⟨q, hyq, hq, rfl⟩ := hy.exists_rational
    have h := Wide.compute?_eq op hp.denom_pos hq.denom_pos
    rw [apply_eq_of_rational? op hint hxp hyq]
    cases x <;> cases y <;> simp_all [Wide.applyNumbers?, isInt, rational?]

/-- Arithmetic on exact numbers is exact, and fails only by zero or for want of 64 bits. -/
theorem apply_exact (op : Arith) {x y : Number} {a b : ℚ} (hx : x.Denotes a) (hy : y.Denotes b) :
    (∀ z, apply op x y = .ok z → z.Denotes (op.onRat a b) ∧
      (z.isInt = true ↔ x.isInt = true ∧ y.isInt = true ∧ op ≠ .div)) ∧
    ((∃ z, apply op x y = .ok z) ↔ ¬(op = .div ∧ b = 0) ∧ Representable (op.onRat a b)) ∧
    ((∃ f, apply op x y = .error f ∧ f.kind = .divisionByZero) ↔ op = .div ∧ b = 0) ∧
    ((∃ f, apply op x y = .error f ∧ f.kind = .outOfRange) ↔
      ¬(op = .div ∧ b = 0) ∧ ¬Representable (op.onRat a b)) ∧
    Wide.applyNumbers? op x y = some (apply op x y) := by
  have hs := apply_settled op hx hy
  have hw := applyNumbers?_eq op hx hy
  cases h : apply op x y with
  | ok z =>
    rw [h] at hs hw
    obtain ⟨hzero, hfits, hz⟩ := hs
    refine ⟨?_, ?_, ?_, ?_, hw⟩
    · rintro _ ⟨⟩
      exact hz
    · exact ⟨fun _ => ⟨hzero, hfits⟩, fun _ => ⟨z, rfl⟩⟩
    · simp [hzero]
    · simp [hfits]
  | error f =>
    rw [h] at hs hw
    refine ⟨by simp, ?_, ?_, ?_, hw⟩
    · rcases hs with ⟨hzero, _⟩ | ⟨_, hfits, _⟩ <;> simp_all
    · rcases hs with ⟨hzero, hk⟩ | ⟨hzero, _, hk⟩ <;> simp_all
    · rcases hs with ⟨hzero, hk⟩ | ⟨hzero, hfits, hk⟩ <;> simp_all

/-- The least integer divided by minus one: the exact quotient is one more than the greatest
integer, and wide words hold all that is computed on the way. -/
theorem apply_exact_minValue :
    (int Int64.minValue).Denotes (-9223372036854775808) ∧ (rational ⟨-1, 1⟩).Denotes (-1) ∧
    (∃ f, apply .div (int Int64.minValue) (rational ⟨-1, 1⟩) = .error f ∧ f.kind = .outOfRange) ∧
    Wide.applyNumbers? .div (int Int64.minValue) (rational ⟨-1, 1⟩) =
      some (apply .div (int Int64.minValue) (rational ⟨-1, 1⟩)) := by
  have hmin : ((Int64.minValue.toInt : ℤ) : ℚ) = -9223372036854775808 := by
    rw [show Int64.minValue.toInt = -9223372036854775808 by decide]
    norm_num
  have hx : (int Int64.minValue).Denotes (-9223372036854775808) := hmin ▸ .int Int64.minValue
  have hv : Rational.value ⟨-1, 1⟩ = -1 := by
    rw [Rational.value, show ((-1 : Int64).toInt) = -1 by decide, show (1 : Int64).toInt = 1 by decide]
    norm_num
  have hy : (rational ⟨-1, 1⟩).Denotes (-1) := denotes_of_rational ⟨⟨by decide, by decide⟩, hv⟩
  obtain ⟨_, _, _, hrange, hwide⟩ := apply_exact .div hx hy
  refine ⟨hx, hy, hrange.mpr ⟨by norm_num, ?_⟩, hwide⟩
  norm_num [Arith.onRat, Representable, FitsInt64]

end Number

end MatrixLisp
