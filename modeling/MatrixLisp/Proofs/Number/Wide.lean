import Mathlib.Tactic
import MatrixLisp.Proofs.Number.Fraction

/-!
# Fractions over 128-bit words

The products and sums behind a fraction are meant to be kept in signed 128-bit words. Here every
single operation on such words is checked: it gives a result only if that result is in range. The
fraction is reduced step by step, its greatest common divisor found by the Euclidean loop. For
operands of 64 bits no check fails, and the outcome is that of the unbounded computation.
-/
namespace MatrixLisp

/-- The range of signed 128-bit words. -/
def FitsWide (n : ℤ) : Prop := -2 ^ 127 ≤ n ∧ n < 2 ^ 127

instance (n : ℤ) : Decidable (FitsWide n) := inferInstanceAs (Decidable (_ ∧ _))

namespace Wide

/-- A result, if it is in range. -/
def check (n : ℤ) : Option ℤ := if FitsWide n then some n else none

def add? (a b : ℤ) : Option ℤ := check (a + b)

def sub? (a b : ℤ) : Option ℤ := check (a - b)

def mul? (a b : ℤ) : Option ℤ := check (a * b)

def abs? (a : ℤ) : Option ℤ := check |a|

/-- The quotient rounded towards zero; there is none by zero. -/
def quot? (a b : ℤ) : Option ℤ := if b = 0 then none else check (a.tdiv b)

/-- The remainder, which is refused wherever the quotient is. -/
def rem? (a b : ℤ) : Option ℤ := (quot? a b).map fun _ => a.tmod b

def gcdLoop? (a b : ℤ) : Option ℤ :=
  if b = 0 then some a
  else
    match _h : rem? a b with
    | some r => gcdLoop? b r
    | none => none
termination_by b.natAbs
decreasing_by
  obtain ⟨_, _, rfl⟩ := Option.map_eq_some_iff.mp _h
  rw [Int.natAbs_tmod]
  exact Nat.mod_lt _ (Int.natAbs_pos.mpr ‹_›)

def gcd? (a b : ℤ) : Option ℤ := do gcdLoop? (← abs? a) (← abs? b)

/-- The fraction `numer / denom` in lowest terms with a positive denominator. No result at all
means that an operation left the range. -/
def reduce? (numer denom : ℤ) : Option (Except Fault Rational) :=
  if denom = 0 then some (.error (.zeroDenominator numer))
  else do
    let sign : ℤ := if denom < 0 then -1 else 1
    let g := max (← gcd? numer denom) 1
    let n ← quot? (← mul? sign numer) g
    let d ← quot? (← mul? sign denom) g
    return match int64? n, int64? d with
      | some numer, some denom => .ok ⟨numer, denom⟩
      | _, _ => .error (.fractionTooWide n d)

def compute? (op : Arith) (p q : Rational) : Option (Except Fault Rational) :=
  let (a, b, c, d) := (p.numer.toInt, p.denom.toInt, q.numer.toInt, q.denom.toInt)
  match op with
  | .add => do reduce? (← add? (← mul? a d) (← mul? c b)) (← mul? b d)
  | .sub => do reduce? (← sub? (← mul? a d) (← mul? c b)) (← mul? b d)
  | .mul => do reduce? (← mul? a c) (← mul? b d)
  | .div =>
    if q.isZero then some (.error (.rationalDivision p q))
    else do reduce? (← mul? a d) (← mul? b c)

/-- The operator on numbers. Two integers need wide words only for their quotient. -/
def applyNumbers? (op : Arith) (x y : Number) : Option (Except Fault Number) :=
  match op, x, y with
  | .div, .int a, .int b =>
    if b = 0 then some (.error (.integerDivision a b))
    else (reduce? a.toInt b.toInt).map (Except.map Number.rational)
  | op, .int a, .int b => some (Number.applyInts op a b)
  | op, x, y =>
    match x.rational?, y.rational? with
    | some p, some q => (compute? op p q).map (Except.map Number.rational)
    | _, _ => some ((op.applyFloat x.toFloat y.toFloat).map Number.float)

theorem check_eq_some {n : ℤ} (h : FitsWide n) : check n = some n := if_pos h

/-- All words but the least one: their negations and quotients are in range as well. -/
def Symmetric (n : ℤ) : Prop := -2 ^ 127 < n ∧ n < 2 ^ 127

theorem Symmetric.abs_lt_pow {n : ℤ} (h : Symmetric n) : |n| < 2 ^ 127 :=
  abs_lt.mpr h

theorem symmetric_of_abs_le {m n : ℤ} (h : Symmetric n) (hm : |m| ≤ |n|) : Symmetric m :=
  abs_lt.mp (hm.trans_lt h.abs_lt_pow)

theorem Symmetric.fits {n : ℤ} (h : Symmetric n) : FitsWide n := ⟨h.1.le, h.2⟩

theorem abs?_eq {n : ℤ} (h : Symmetric n) : abs? n = some |n| :=
  check_eq_some (symmetric_of_abs_le h (abs_abs n).le).fits

theorem quot?_eq {a b : ℤ} (ha : Symmetric a) (hb : b ≠ 0) : quot? a b = some (a.tdiv b) := by
  have hle : |a.tdiv b| ≤ |a| := by
    rw [Int.abs_eq_natAbs, Int.abs_eq_natAbs, Int.natAbs_tdiv]
    exact_mod_cast Nat.div_le_self _ _
  rw [quot?, if_neg hb]
  exact check_eq_some (symmetric_of_abs_le ha hle).fits

theorem rem?_eq {a b : ℤ} (ha : Symmetric a) (hb : b ≠ 0) : rem? a b = some (a.tmod b) := by
  rw [rem?, quot?_eq ha hb]
  rfl

/-- The loop keeps the greatest common divisor and never leaves the range. -/
theorem gcdLoop?_eq (a b : ℕ) (ha : Symmetric a) (hb : Symmetric b) :
    gcdLoop? a b = some (Nat.gcd a b : ℤ) := by
  induction b using Nat.strong_induction_on generalizing a with
  | _ b ih =>
    rw [gcdLoop?]
    split_ifs with hzero
    · have hb0 : b = 0 := by exact_mod_cast hzero
      rw [hb0, Nat.gcd_zero_right]
    · have hb0 : 0 < b := Nat.pos_of_ne_zero (by exact_mod_cast hzero)
      have hr : rem? a b = some ((a % b : ℕ) : ℤ) := by
        rw [rem?_eq ha hzero]
        rfl
      have hlt : a % b < b := Nat.mod_lt a hb0
      have hsym : Symmetric ((a % b : ℕ) : ℤ) := by
        refine symmetric_of_abs_le hb ?_
        rw [Nat.abs_cast, Nat.abs_cast]
        exact_mod_cast hlt.le
      split
      · rename_i r h
        rw [hr] at h
        cases h
        rw [ih (a % b) hlt b hb hsym, Nat.gcd_comm b, ← Nat.gcd_rec, Nat.gcd_comm]
      · rename_i h
        rw [hr] at h
        cases h

theorem gcd?_eq {a b : ℤ} (ha : Symmetric a) (hb : Symmetric b) :
    gcd? a b = some (Int.gcd a b : ℤ) := by
  rw [gcd?, abs?_eq ha, abs?_eq hb, Int.abs_eq_natAbs, Int.abs_eq_natAbs]
  refine gcdLoop?_eq _ _ ?_ ?_
  · exact symmetric_of_abs_le ha (by rw [Nat.abs_cast, Int.abs_eq_natAbs])
  · exact symmetric_of_abs_le hb (by rw [Nat.abs_cast, Int.abs_eq_natAbs])

theorem sign_eq {n : ℤ} (h : n ≠ 0) : (if n < 0 then -1 else 1 : ℤ) = n.sign := by
  rcases lt_or_gt_of_ne h with hn | hn
  · rw [if_pos hn, Int.sign_eq_neg_one_of_neg hn]
  · rw [if_neg hn.not_gt, Int.sign_eq_one_of_pos hn]

theorem symmetric_sign_mul {a n : ℤ} (ha : Symmetric a) (h : n ≠ 0) : Symmetric (n.sign * a) := by
  refine symmetric_of_abs_le ha ?_
  rw [abs_mul, Int.abs_sign_of_ne_zero h, one_mul]

/-- One part of a fraction, with the sign of the denominator, divided by a common factor. -/
theorem quot?_sign_mul {a n g : ℤ} (ha : Symmetric a) (h : n ≠ 0) (hg : g ≠ 0) (hdvd : g ∣ a) :
    (mul? n.sign a).bind (quot? · g) = some (n.sign * a / g) := by
  have hs := symmetric_sign_mul ha h
  rw [mul?, check_eq_some hs.fits, Option.bind_some, quot?_eq hs hg,
    Int.tdiv_eq_ediv_of_dvd (hdvd.mul_left _)]

/-- Reduction stays in range and does what the unbounded computation does. -/
theorem reduce?_eq {numer denom : ℤ} (hn : Symmetric numer) (hd : Symmetric denom) :
    reduce? numer denom = some (Rational.ofFraction numer denom) := by
  by_cases hzero : denom = 0
  · rw [reduce?, Rational.ofFraction, if_pos hzero, if_pos hzero]
  · have hpos : 0 < Int.gcd numer denom := Int.gcd_pos_of_ne_zero_right numer hzero
    have hmax : max (Int.gcd numer denom : ℤ) 1 = Int.gcd numer denom := by omega
    have hg : (Int.gcd numer denom : ℤ) ≠ 0 := by omega
    have hnumer := quot?_sign_mul hn hzero hg (Int.gcd_dvd_left ..)
    have hdenom := quot?_sign_mul hd hzero hg (Int.gcd_dvd_right ..)
    simp only [reduce?, if_neg hzero, gcd?_eq hn hd, hmax, sign_eq hzero, Option.bind_eq_bind,
      Option.bind_some, ← Option.bind_assoc, hnumer, hdenom, Option.pure_def]
    exact congrArg some (if_neg hzero).symm

theorem symmetric_toInt (w : Int64) : Symmetric w.toInt := by
  have h₁ := w.le_toInt
  have h₂ := w.toInt_lt
  constructor <;> omega

/-- The product of two 64-bit integers uses half the range. -/
theorem abs_mul_le (a b : Int64) : |a.toInt * b.toInt| ≤ 2 ^ 126 := by
  have ha : |a.toInt| ≤ 2 ^ 63 := abs_le.mpr ⟨a.le_toInt, a.toInt_lt.le⟩
  have hb : |b.toInt| ≤ 2 ^ 63 := abs_le.mpr ⟨b.le_toInt, b.toInt_lt.le⟩
  calc
    |a.toInt * b.toInt| = |a.toInt| * |b.toInt| := abs_mul _ _
    _ ≤ 2 ^ 63 * 2 ^ 63 := mul_le_mul ha hb (abs_nonneg _) (by positivity)
    _ = 2 ^ 126 := by norm_num

/-- With a positive factor the product stays below half the range, so that two of them can be added
or subtracted. -/
theorem abs_mul_lt (a : Int64) {b : Int64} (hb : 0 < b.toInt) : |a.toInt * b.toInt| < 2 ^ 126 := by
  have ha : |a.toInt| ≤ 2 ^ 63 := abs_le.mpr ⟨a.le_toInt, a.toInt_lt.le⟩
  have hlt := b.toInt_lt
  calc
    |a.toInt * b.toInt| = |a.toInt| * b.toInt := by rw [abs_mul, abs_of_pos hb]
    _ ≤ 2 ^ 63 * b.toInt := mul_le_mul_of_nonneg_right ha hb.le
    _ < 2 ^ 126 := by omega

theorem symmetric_mul (a b : Int64) : Symmetric (a.toInt * b.toInt) :=
  abs_lt.mp ((abs_mul_le a b).trans_lt (by norm_num))

theorem mul?_eq (a b : Int64) : mul? a.toInt b.toInt = some (a.toInt * b.toInt) :=
  check_eq_some (symmetric_mul a b).fits

theorem symmetric_add {m n : ℤ} (hm : |m| < 2 ^ 126) (hn : |n| < 2 ^ 126) : Symmetric (m + n) := by
  have h₁ := abs_lt.mp hm
  have h₂ := abs_lt.mp hn
  constructor <;> omega

theorem symmetric_sub {m n : ℤ} (hm : |m| < 2 ^ 126) (hn : |n| < 2 ^ 126) : Symmetric (m - n) := by
  have h₁ := abs_lt.mp hm
  have h₂ := abs_lt.mp hn
  constructor <;> omega

theorem compute?_eq (op : Arith) {p q : Rational} (hp : 0 < p.denom.toInt) (hq : 0 < q.denom.toInt) :
    compute? op p q = some (Rational.apply op p q) := by
  have hadd := symmetric_add (abs_mul_lt p.numer hq) (abs_mul_lt q.numer hp)
  have hsub := symmetric_sub (abs_mul_lt p.numer hq) (abs_mul_lt q.numer hp)
  have hden := symmetric_mul p.denom q.denom
  cases op with
  | add =>
    simp only [compute?, add?, mul?_eq, check_eq_some hadd.fits, reduce?_eq hadd hden, Rational.apply,
      Rational.add, Option.bind_eq_bind, Option.bind_some]
  | sub =>
    simp only [compute?, sub?, mul?_eq, check_eq_some hsub.fits, reduce?_eq hsub hden, Rational.apply,
      Rational.sub, Option.bind_eq_bind, Option.bind_some]
  | mul =>
    simp only [compute?, mul?_eq, reduce?_eq (symmetric_mul p.numer q.numer) hden, Rational.apply,
      Rational.mul, Option.bind_eq_bind, Option.bind_some]
  | div =>
    have hquot := reduce?_eq (symmetric_mul p.numer q.denom) (symmetric_mul p.denom q.numer)
    simp only [compute?, mul?_eq, hquot, Rational.apply, Rational.div, Option.bind_eq_bind,
      Option.bind_some]
    split_ifs <;> rfl

end Wide

end MatrixLisp
