import MatrixLisp.Error.Fault

/-!
# Arithmetic and comparison of numbers

Exact operands give exact results or a fault: integers stay integers except under division, and
fractions are brought to lowest terms. Intermediate results are unbounded integers, so only the
final result has to fit in 64 bits. As soon as one operand is a float, both are taken as floats.
-/
namespace MatrixLisp

/-- Floats this near count as equal, and a divisor this near to zero counts as zero: `2 ^ (-52)`. -/
def tolerance : Float := Float.ofBits 0x3CB0000000000000

/-- Equality of floats up to the tolerance. No infinity and no NaN equals anything. -/
def nearlyEqual (x y : Float) : Bool := (x - y).abs ≤ tolerance

def Arith.applyFloat (op : Arith) (x y : Float) : Except Fault Float :=
  match op with
  | add => .ok (x + y)
  | sub => .ok (x - y)
  | mul => .ok (x * y)
  | div => if y.abs ≤ tolerance then .error (.floatDivision x y) else .ok (x / y)

namespace Rational

/-- The fraction `numer / denom` in lowest terms with a positive denominator. -/
def ofFraction (numer denom : Int) : Except Fault Rational :=
  if denom = 0 then .error (.zeroDenominator numer)
  else
    let g : Int := Int.gcd numer denom
    let n := denom.sign * numer / g
    let d := denom.sign * denom / g
    match int64? n, int64? d with
    | some numer, some denom => .ok ⟨numer, denom⟩
    | _, _ => .error (.fractionTooWide n d)

def add (p q : Rational) : Except Fault Rational :=
  ofFraction (p.numer.toInt * q.denom.toInt + q.numer.toInt * p.denom.toInt)
    (p.denom.toInt * q.denom.toInt)

def sub (p q : Rational) : Except Fault Rational :=
  ofFraction (p.numer.toInt * q.denom.toInt - q.numer.toInt * p.denom.toInt)
    (p.denom.toInt * q.denom.toInt)

def mul (p q : Rational) : Except Fault Rational :=
  ofFraction (p.numer.toInt * q.numer.toInt) (p.denom.toInt * q.denom.toInt)

def div (p q : Rational) : Except Fault Rational :=
  if q.isZero then .error (.rationalDivision p q)
  else ofFraction (p.numer.toInt * q.denom.toInt) (p.denom.toInt * q.numer.toInt)

def apply : Arith → Rational → Rational → Except Fault Rational
  | .add => add
  | .sub => sub
  | .mul => mul
  | .div => div

/-- The order of fractions with positive denominators, by their cross products. -/
def compare (p q : Rational) : Ordering :=
  Ord.compare (p.numer.toInt * q.denom.toInt) (q.numer.toInt * p.denom.toInt)

end Rational

/-- The order of floats; there is none when one of them is NaN. -/
def compareFloats? (x y : Float) : Option Ordering :=
  if x < y then some .lt else if x == y then some .eq else if y < x then some .gt else none

namespace Number

/-- An integer result, if it fits in 64 bits. -/
def ofResult (op : Arith) (a b : Int64) (n : Int) : Except Fault Number :=
  match int64? n with
  | some w => .ok (.int w)
  | none => .error (.integerOverflow op a b)

/-- The operator on integers; division gives a fraction. -/
def applyInts (op : Arith) (a b : Int64) : Except Fault Number :=
  match op with
  | .add => ofResult .add a b (a.toInt + b.toInt)
  | .sub => ofResult .sub a b (a.toInt - b.toInt)
  | .mul => ofResult .mul a b (a.toInt * b.toInt)
  | .div =>
    if b = 0 then .error (.integerDivision a b)
    else (Rational.ofFraction a.toInt b.toInt).map rational

/-- The operator on numbers: any float makes the result a float, otherwise any fraction makes it a
fraction. -/
def apply (op : Arith) (x y : Number) : Except Fault Number :=
  match x, y with
  | int a, int b => applyInts op a b
  | x, y =>
    match x.rational?, y.rational? with
    | some p, some q => (Rational.apply op p q).map rational
    | _, _ => (op.applyFloat x.toFloat y.toFloat).map float

/-- Equality of numbers: exact between two integers or two fractions, otherwise by their floats up
to the tolerance. -/
def equal : Number → Number → Bool
  | int a, int b => a == b
  | rational p, rational q => p == q
  | x, y => nearlyEqual x.toFloat y.toFloat

/-- The order of numbers: exact between exact numbers, otherwise that of their floats. -/
def compare? (x y : Number) : Option Ordering :=
  match x.rational?, y.rational? with
  | some p, some q => some (p.compare q)
  | _, _ => compareFloats? x.toFloat y.toFloat

end Number

end MatrixLisp
