import MatrixLisp.Decimal.FloatText

/-!
# Numbers

A number is a 64-bit integer, a fraction of two such integers, or a float. Integers and fractions
are exact. This module holds the types and their texts; the operations are in
`MatrixLisp.Number.Arithmetic`.
-/
namespace MatrixLisp

/-- The 64-bit integer with a given value, if there is one. -/
def int64? (n : Int) : Option Int64 :=
  if Int64.minValue.toInt ≤ n ∧ n ≤ Int64.maxValue.toInt then some (Int64.ofInt n) else none

theorem minValue_le_toInt (w : Int64) : Int64.minValue.toInt ≤ w.toInt := by
  have h := w.le_toInt
  have hmin : Int64.minValue.toInt = -9223372036854775808 := by decide
  omega

theorem toInt_le_maxValue (w : Int64) : w.toInt ≤ Int64.maxValue.toInt := by
  have h := w.toInt_lt
  have hmax : Int64.maxValue.toInt = 9223372036854775807 := by decide
  omega

theorem int64?_eq_some_iff {n : Int} {w : Int64} : int64? n = some w ↔ w.toInt = n := by
  unfold int64?
  split
  · rename_i h
    constructor
    · rintro ⟨⟩
      have hmin : Int64.minValue.toInt = -9223372036854775808 := by decide
      have hmax : Int64.maxValue.toInt = 9223372036854775807 := by decide
      exact Int64.toInt_ofInt_of_le (by omega) (by omega)
    · rintro rfl
      rw [Int64.ofInt_toInt]
  · rename_i h
    constructor
    · intro hn
      cases hn
    · rintro rfl
      exact absurd ⟨minValue_le_toInt w, toInt_le_maxValue w⟩ h

theorem int64?_eq_none_iff {n : Int} :
    int64? n = none ↔ n < Int64.minValue.toInt ∨ Int64.maxValue.toInt < n := by
  unfold int64?
  split
  · rename_i h
    constructor
    · intro hn
      cases hn
    · intro hn
      omega
  · rename_i h
    constructor
    · intro _
      omega
    · intro _
      rfl

/-- A fraction. Those that the operations build are in lowest terms with a positive denominator. -/
structure Rational where
  numer : Int64
  denom : Int64
  deriving DecidableEq, Hashable

namespace Rational

/-- Lowest terms: the denominator is positive and shares no factor with the numerator. -/
structure WellFormed (q : Rational) : Prop where
  denom_pos : 0 < q.denom.toInt
  coprime : Int.gcd q.numer.toInt q.denom.toInt = 1

def ofInt64 (n : Int64) : Rational := ⟨n, 1⟩

def text (q : Rational) : String := s!"{q.numer.toInt}/{q.denom.toInt}"

/-- The float quotient of numerator and denominator. -/
def toFloat (q : Rational) : Float :=
  Float.ofInt q.numer.toInt / Float.ofInt q.denom.toInt

def isZero (q : Rational) : Bool := q.numer == 0

end Rational

inductive Number where
  | int (n : Int64)
  | rational (q : Rational)
  | float (x : Float)

namespace Number

/-- The float nearest to an integer, the quotient of a fraction, or the float itself. -/
def toFloat : Number → Float
  | int n => Float.ofInt n.toInt
  | rational q => q.toFloat
  | float x => x

/-- An exact number as a fraction. -/
def rational? : Number → Option Rational
  | int n => some (.ofInt64 n)
  | rational q => some q
  | float _ => none

/-- The number as it is written in source text. -/
def text : Number → String
  | int n => toString n.toInt
  | rational q => q.text
  | float x => FloatText.literal x

end Number

inductive Arith where
  | add
  | sub
  | mul
  | div
  deriving DecidableEq

namespace Arith

def symbol : Arith → String
  | add => "+"
  | sub => "-"
  | mul => "*"
  | div => "/"

end Arith

end MatrixLisp
