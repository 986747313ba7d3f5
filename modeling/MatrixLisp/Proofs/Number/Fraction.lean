import Mathlib.Data.Rat.Lemmas
import Mathlib.Tactic
import MatrixLisp.Number.Arithmetic

/-!
# Fractions in lowest terms

A fraction of two 64-bit integers stands for a rational number, and a rational number has one
numerator and one denominator in lowest terms. Forming a fraction computes these two: it succeeds
exactly when the denominator is not zero and both fit in 64 bits.
-/
namespace MatrixLisp

/-- The range of 64-bit integers. -/
def FitsInt64 (n : ℤ) : Prop := -9223372036854775808 ≤ n ∧ n ≤ 9223372036854775807

instance (n : ℤ) : Decidable (FitsInt64 n) := inferInstanceAs (Decidable (_ ∧ _))

theorem fitsInt64_toInt (w : Int64) : FitsInt64 w.toInt := by
  have h₁ := w.le_toInt
  have h₂ := w.toInt_lt
  unfold FitsInt64
  omega

theorem int64?_eq_none_iff_not_fits {n : ℤ} : int64? n = none ↔ ¬FitsInt64 n := by
  have hmin : Int64.minValue.toInt = -9223372036854775808 := by decide
  have hmax : Int64.maxValue.toInt = 9223372036854775807 := by decide
  rw [int64?_eq_none_iff, hmin, hmax]
  unfold FitsInt64
  omega

@[simp] theorem int64?_toInt (w : Int64) : int64? w.toInt = some w :=
  int64?_eq_some_iff.mpr rfl

/-- A rational number that a fraction of two 64-bit integers can stand for. An integer has the
denominator one, so that only its numerator matters. -/
def Representable (r : ℚ) : Prop := FitsInt64 r.num ∧ FitsInt64 r.den

/-- How an exact operation ends: it divides by zero, its exact result does not fit, or it gives a
result with a property. -/
def Settled {α : Type} (result : Except Fault α) (zero fits : Prop) (P : α → Prop) : Prop :=
  match result with
  | .ok a => ¬zero ∧ fits ∧ P a
  | .error f =>
    (zero ∧ f.kind = .divisionByZero) ∨ (¬zero ∧ ¬fits ∧ f.kind = .outOfRange)

theorem Settled.map {α β : Type} {result : Except Fault α} {zero fits : Prop} {P : α → Prop}
    {Q : β → Prop} {g : α → β} (h : Settled result zero fits P) (hg : ∀ a, P a → Q (g a)) :
    Settled (result.map g) zero fits Q := by
  cases result with
  | ok a => exact ⟨h.1, h.2.1, hg a h.2.2⟩
  | error f => exact h

/-- The conditions may be told in other words; whether the result fits matters only if it exists. -/
theorem Settled.congr {α : Type} {result : Except Fault α} {zero zero' fits fits' : Prop}
    {P : α → Prop} (h : Settled result zero fits P) (hzero : zero ↔ zero')
    (hfits : ¬zero → (fits ↔ fits')) : Settled result zero' fits' P := by
  cases result with
  | ok a =>
    obtain ⟨hnot, hfit, ha⟩ := h
    exact ⟨mt hzero.mpr hnot, (hfits hnot).mp hfit, ha⟩
  | error f =>
    refine h.imp (fun ⟨hz, hkind⟩ => ⟨hzero.mp hz, hkind⟩) ?_
    rintro ⟨hnot, hfit, hkind⟩
    exact ⟨mt hzero.mpr hnot, mt (hfits hnot).mpr hfit, hkind⟩

/-- Each of the three endings has its condition, and no operation ends in a fourth way. -/
theorem Settled.outcomes {α : Type} {result : Except Fault α} {zero fits : Prop} {P : α → Prop}
    (h : Settled result zero fits P) :
    ((∃ f, result = .error f ∧ f.kind = .divisionByZero) ↔ zero) ∧
    ((∃ f, result = .error f ∧ f.kind = .outOfRange) ↔ ¬zero ∧ ¬fits) ∧
    ((∃ a, result = .ok a) ↔ ¬zero ∧ fits) ∧ ∀ a, result = .ok a → P a := by
  cases result with
  | ok a =>
    obtain ⟨hzero, hfits, ha⟩ := h
    simp [hzero, hfits, ha]
  | error f =>
    rcases h with ⟨hzero, hkind⟩ | ⟨hzero, hfits, hkind⟩
    · simp [hzero, hkind]
    · simp [hzero, hfits, hkind]

theorem Settled.kind_of_error {α : Type} {result : Except Fault α} {zero fits : Prop}
    {P : α → Prop} (h : Settled result zero fits P) {f : Fault} (hf : result = .error f) :
    f.kind = .outOfRange ∨ f.kind = .divisionByZero := by
  subst hf
  exact (h.imp (fun hzero => hzero.2) fun hfits => hfits.2.2).symm

namespace Rational

/-- The rational number that a fraction stands for. -/
def value (q : Rational) : ℚ := (q.numer.toInt : ℚ) / q.denom.toInt

theorem WellFormed.denom_ne_zero {q : Rational} (h : q.WellFormed) :
    (q.denom.toInt : ℚ) ≠ 0 := by
  have hd := h.denom_pos
  exact_mod_cast hd.ne'

/-- In lowest terms the numerator and the denominator are those of the value. -/
theorem WellFormed.num_den {q : Rational} (h : q.WellFormed) :
    q.value.num = q.numer.toInt ∧ (q.value.den : ℤ) = q.denom.toInt := by
  have hc : Nat.Coprime q.numer.toInt.natAbs q.denom.toInt.natAbs := h.coprime
  exact ⟨Rat.num_div_eq_of_coprime h.denom_pos hc, Rat.den_div_eq_of_coprime h.denom_pos hc⟩

/-- A fraction whose parts are those of a rational number is in lowest terms. -/
theorem wellFormed_of_num_den {q : Rational} {r : ℚ} (hn : q.numer.toInt = r.num)
    (hd : q.denom.toInt = r.den) : q.WellFormed ∧ q.value = r := by
  refine ⟨⟨?_, ?_⟩, ?_⟩
  · rw [hd]
    exact_mod_cast r.den_pos
  · rw [hn, hd]
    exact r.reduced
  · unfold value
    rw [hn, hd]
    exact_mod_cast Rat.num_div_den r

/-- A value has one fraction in lowest terms. -/
theorem eq_iff_value_eq {p q : Rational} (hp : p.WellFormed) (hq : q.WellFormed) :
    p = q ↔ p.value = q.value := by
  constructor
  · rintro rfl
    rfl
  · intro h
    obtain ⟨hpnumer, hpdenom⟩ := hp.num_den
    obtain ⟨hqnumer, hqdenom⟩ := hq.num_den
    rw [h, hqnumer] at hpnumer
    rw [h, hqdenom] at hpdenom
    obtain ⟨pnumer, pdenom⟩ := p
    obtain ⟨qnumer, qdenom⟩ := q
    rw [mk.injEq]
    exact ⟨(Int64.toInt_inj.mp hpnumer).symm, (Int64.toInt_inj.mp hpdenom).symm⟩

theorem wellFormed_ofInt64 (n : Int64) : (ofInt64 n).WellFormed :=
  ⟨Int.one_pos, Int.gcd_one_right _⟩

theorem value_ofInt64 (n : Int64) : (ofInt64 n).value = n.toInt := by
  simp [value, ofInt64]

theorem value_eq_zero_iff {q : Rational} (h : q.WellFormed) : q.value = 0 ↔ q.isZero = true := by
  have hzero : q.numer.toInt = 0 ↔ q.numer = 0 := by
    rw [← Int64.toInt_zero, Int64.toInt_inj]
  simp [value, isZero, h.denom_ne_zero, hzero]

/-- The numerator and denominator that `ofFraction` computes are those of the quotient. -/
theorem ofFraction_eq {numer denom : ℤ} (h : denom ≠ 0) :
    ofFraction numer denom =
      match int64? ((numer : ℚ) / denom).num, int64? ((numer : ℚ) / denom).den with
      | some n, some d => .ok ⟨n, d⟩
      | _, _ => .error (.fractionTooWide ((numer : ℚ) / denom).num ((numer : ℚ) / denom).den) := by
  have hnum : ((numer : ℚ) / denom).num = denom.sign * numer / Int.gcd numer denom := by
    rw [← Rat.divInt_eq_div, Rat.num_divInt, Int.gcd_comm]
  have hden : (((numer : ℚ) / denom).den : ℤ) = denom.sign * denom / Int.gcd numer denom := by
    rw [← Rat.divInt_eq_div, Rat.den_divInt, if_neg h, Int.gcd_comm, Int.sign_mul_self_eq_natAbs]
    rfl
  rw [hnum, hden]
  exact if_neg h

/-- A quotient of 64-bit integers with a divisor that is not negative fits: its parts in lowest terms
are no further from zero. -/
theorem representable_of_nonneg (n : Int64) {d : Int64} (hd : 0 ≤ d.toInt) :
    Representable ((n.toInt : ℚ) / d.toInt) := by
  rcases hd.eq_or_lt with hzero | hpos
  · rw [← hzero, Int.cast_zero, div_zero]
    exact ⟨by decide, by decide⟩
  · generalize hr : (n.toInt : ℚ) / d.toInt = r
    have hd' : (d.toInt : ℚ) ≠ 0 := by exact_mod_cast hpos.ne'
    have hden' : (r.den : ℚ) ≠ 0 := by exact_mod_cast r.den_ne_zero
    have hcross : n.toInt * r.den = r.num * d.toInt := by
      rw [← Rat.num_div_den r] at hr
      exact_mod_cast (div_eq_div_iff hd' hden').mp hr
    have hden : (r.den : ℤ) ≤ d.toInt := by
      refine Int.le_of_dvd hpos ?_
      rw [← hr, ← Rat.divInt_eq_div]
      exact Rat.den_dvd _ _
    have hdenpos : (0 : ℤ) < r.den := by exact_mod_cast r.den_pos
    have hn := fitsInt64_toInt n
    refine ⟨⟨?_, ?_⟩, ?_⟩
    · by_contra hlow
      have hle : n.toInt * r.den ≤ r.num * r.den :=
        hcross.trans_le (mul_le_mul_of_nonpos_left hden (by omega))
      exact hlow (hn.1.trans (le_of_mul_le_mul_right hle hdenpos))
    · by_contra hhigh
      have hle : r.num * r.den ≤ n.toInt * r.den :=
        (mul_le_mul_of_nonneg_left hden (by omega)).trans hcross.ge
      exact hhigh ((le_of_mul_le_mul_right hle hdenpos).trans hn.2)
    · have hfits := fitsInt64_toInt d
      exact ⟨by omega, hden.trans hfits.2⟩

theorem ofFraction_settled (numer denom : ℤ) :
    Settled (ofFraction numer denom) (denom = 0) (Representable ((numer : ℚ) / denom))
      fun q => q.WellFormed ∧ q.value = (numer : ℚ) / denom := by
  by_cases h : denom = 0
  · rw [ofFraction, if_pos h]
    exact Or.inl ⟨h, rfl⟩
  · rw [ofFraction_eq h]
    split
    · rename_i n d hn hd
      rw [int64?_eq_some_iff] at hn hd
      refine ⟨h, ⟨?_, ?_⟩, wellFormed_of_num_den hn hd⟩
      · rw [← hn]
        exact fitsInt64_toInt n
      · rw [← hd]
        exact fitsInt64_toInt d
    · rename_i hnone
      refine Or.inr ⟨h, ?_, rfl⟩
      rintro ⟨hn, hd⟩
      cases hn' : int64? ((numer : ℚ) / denom).num with
      | none => exact int64?_eq_none_iff_not_fits.mp hn' hn
      | some n =>
        cases hd' : int64? ((numer : ℚ) / denom).den with
        | none => exact int64?_eq_none_iff_not_fits.mp hd' hd
        | some d => exact hnone n d hn' hd'

/-- The same with the quotient in another form, for a denominator that is known not to be zero. -/
theorem ofFraction_settled_of_eq {numer denom : ℤ} {r : ℚ} {zero : Prop} (hd : denom ≠ 0)
    (hz : ¬zero) (hr : (numer : ℚ) / denom = r) :
    Settled (ofFraction numer denom) zero (Representable r)
      fun q => q.WellFormed ∧ q.value = r := by
  have h := ofFraction_settled numer denom
  rwa [hr, eq_false hd, ← eq_false hz] at h

theorem wellFormed_of_ofFraction {numer denom : ℤ} {q : Rational}
    (h : ofFraction numer denom = .ok q) : q.WellFormed := by
  have hs := ofFraction_settled numer denom
  rw [h] at hs
  exact hs.2.2.1

/-- A fraction in lowest terms is formed from its own numerator and denominator. -/
theorem WellFormed.ofFraction_self {q : Rational} (h : q.WellFormed) :
    ofFraction q.numer.toInt q.denom.toInt = .ok q := by
  have hd : q.denom.toInt ≠ 0 := h.denom_pos.ne'
  have hv : (q.numer.toInt : ℚ) / q.denom.toInt = q.value := rfl
  rw [ofFraction_eq hd, hv, h.num_den.1, h.num_den.2]
  simp

end Rational

end MatrixLisp
