import Mathlib.Tactic
import MatrixLisp.Proofs.Number.Wide
import MatrixLisp.Proofs.Reader.Numeral

/-!
# One fraction for one value

A fraction is formed of two integers by reducing them before their range is looked at. It fails only
for a zero denominator and for reduced parts that do not fit in 64 bits. Two pairs of integers with
equal cross products give one fraction, and a fraction is told by its text.
-/
namespace MatrixLisp.Rational

variable {n d m e : ℤ} {p q : Rational}

/-- What is formed of two integers stands for their quotient. -/
theorem value_of_ofFraction (h : ofFraction n d = .ok q) :
    d ≠ 0 ∧ q.WellFormed ∧ q.value = (n : ℚ) / d := by
  have hs := ofFraction_settled n d
  rw [h] at hs
  exact ⟨hs.1, hs.2.2⟩

/-- The parts of a fraction are in proportion to the integers that it is formed of. -/
theorem cross_eq_of_ofFraction (h : ofFraction n d = .ok q) :
    q.numer.toInt * d = n * q.denom.toInt := by
  obtain ⟨hd, hq, hvalue⟩ := value_of_ofFraction h
  have hd' : (d : ℚ) ≠ 0 := by exact_mod_cast hd
  exact_mod_cast (div_eq_div_iff hq.denom_ne_zero hd').mp hvalue

/-- Pairs of integers form one fraction exactly if their cross products are equal. -/
theorem eq_iff_cross_eq (hp : ofFraction n d = .ok p) (hq : ofFraction m e = .ok q) :
    p = q ↔ n * e = m * d := by
  obtain ⟨hd, hpwf, hpvalue⟩ := value_of_ofFraction hp
  obtain ⟨he, hqwf, hqvalue⟩ := value_of_ofFraction hq
  have hd' : (d : ℚ) ≠ 0 := by exact_mod_cast hd
  have he' : (e : ℚ) ≠ 0 := by exact_mod_cast he
  rw [eq_iff_value_eq hpwf hqwf, hpvalue, hqvalue, div_eq_div_iff hd' he']
  exact_mod_cast Iff.rfl

/-- Fractions in lowest terms are told apart by their texts, since each is read from its own. -/
theorem WellFormed.text_inj (hp : p.WellFormed) (hq : q.WellFormed) : p.text = q.text ↔ p = q := by
  constructor
  · intro h
    have hread := Literal.classify_rational hp
    rw [h, Literal.classify_rational hq] at hread
    cases hread
    rfl
  · rintro rfl
    rfl

/-- Forming a fraction of two 64-bit integers fails only by zero or for want of 64 bits. What it gives
is in lowest terms, and it is the one fraction, with the one text, for all pairs with the same cross
products. -/
theorem ofFraction_canonical (n d : Int64) :
    ((∃ f, ofFraction n.toInt d.toInt = .error f ∧ f.kind = .divisionByZero) ↔ d = 0) ∧
    ((∃ f, ofFraction n.toInt d.toInt = .error f ∧ f.kind = .outOfRange) ↔
      d ≠ 0 ∧ ¬Representable ((n.toInt : ℚ) / d.toInt)) ∧
    ((∃ q, ofFraction n.toInt d.toInt = .ok q) ↔
      d ≠ 0 ∧ Representable ((n.toInt : ℚ) / d.toInt)) ∧
    Wide.reduce? n.toInt d.toInt = some (ofFraction n.toInt d.toInt) ∧
    ∀ q, ofFraction n.toInt d.toInt = .ok q →
      0 < q.denom.toInt ∧ Int.gcd q.numer.toInt q.denom.toInt = 1 ∧
      q.numer.toInt * d.toInt = n.toInt * q.denom.toInt ∧
      ∀ (m e : Int64) (p : Rational), ofFraction m.toInt e.toInt = .ok p →
        ((q == p) = true ∧ hash q = hash p ∧ q.text = p.text ↔
          n.toInt * e.toInt = m.toInt * d.toInt) ∧
        (q.text = p.text ↔ n.toInt * e.toInt = m.toInt * d.toInt) := by
  have hd : d = 0 ↔ d.toInt = 0 := by rw [← Int64.toInt_zero, Int64.toInt_inj]
  obtain ⟨hzero, hrange, hok, -⟩ := (ofFraction_settled n.toInt d.toInt).outcomes
  have hwide := Wide.reduce?_eq (Wide.symmetric_toInt n) (Wide.symmetric_toInt d)
  rw [ne_eq, hd]
  refine ⟨hzero, hrange, hok, hwide, fun q hq => ?_⟩
  have hqwf := wellFormed_of_ofFraction hq
  refine ⟨hqwf.denom_pos, hqwf.coprime, cross_eq_of_ofFraction hq, fun m e p hp => ?_⟩
  rw [hqwf.text_inj (wellFormed_of_ofFraction hp), ← eq_iff_cross_eq hq hp, beq_iff_eq]
  refine ⟨⟨fun h => h.1, ?_⟩, Iff.rfl⟩
  rintro rfl
  exact ⟨rfl, rfl, rfl⟩

/-- The least integer over six, and the same quotient of two integers with other signs. -/
theorem ofFraction_canonical_minValue :
    ofFraction Int64.minValue.toInt (6 : Int64).toInt = .ok ⟨-4611686018427387904, 3⟩ ∧
    ofFraction (4611686018427387904 : Int64).toInt (-3 : Int64).toInt =
      .ok ⟨-4611686018427387904, 3⟩ ∧
    Int.gcd (-4611686018427387904 : Int64).toInt (3 : Int64).toInt = 1 ∧
    Int64.minValue.toInt * (-3 : Int64).toInt =
      (4611686018427387904 : Int64).toInt * (6 : Int64).toInt := by
  have hq : ofFraction Int64.minValue.toInt (6 : Int64).toInt =
      .ok ⟨-4611686018427387904, 3⟩ := rfl
  have hp : ofFraction (4611686018427387904 : Int64).toInt (-3 : Int64).toInt =
      .ok ⟨-4611686018427387904, 3⟩ := rfl
  obtain ⟨-, -, -, -, hcanonical⟩ := ofFraction_canonical Int64.minValue 6
  obtain ⟨-, hcoprime, -, hcross⟩ := hcanonical _ hq
  exact ⟨hq, hp, hcoprime, (hcross _ _ _ hp).2.mp rfl⟩

end MatrixLisp.Rational
