/-!
# Shortest decimals

A positive binary number `m · 2 ^ e` stands for all reals that round to it. Among the decimals in
that interval `Magnitude.shortest` finds one with the fewest digits, and of those the nearest: for
each power of ten, from a great one downwards, it tests the two neighbours of the number among the
multiples of that power. All tests are exact, in natural numbers.
-/
namespace MatrixLisp

/-- The number `mantissa · 2 ^ exponent`. -/
structure Magnitude where
  mantissa : Nat
  exponent : Int
  deriving DecidableEq

namespace Magnitude

/-- The exponent of the smallest positive number. -/
def minExponent : Int := -1074

/-- The leading bit of a mantissa, `2 ^ 52`, which a bit pattern leaves out. -/
def hidden : Nat := 4503599627370496

/-- The magnitude that a 64-bit pattern of a finite binary number encodes: eleven bits of exponent
above fifty-two bits of fraction. The sign bit is ignored. -/
def ofBits (bits : Nat) : Magnitude :=
  let fraction := bits % hidden
  let exponent := bits / hidden % 2048
  if exponent = 0 then ⟨fraction, minExponent⟩
  else ⟨hidden + fraction, exponent + minExponent - 1⟩

/-- The greatest natural number that is not above the magnitude. -/
def floor (m : Magnitude) : Nat :=
  m.mantissa * Nat.pow 2 m.exponent.toNat / Nat.pow 2 (-m.exponent).toNat

def isWhole (m : Magnitude) : Bool :=
  m.mantissa % Nat.pow 2 (-m.exponent).toNat == 0

/-- The reals that round to a magnitude, between two bounds counted in quarters of its last place.
The bounds themselves belong to it when the mantissa is even. -/
structure Interval where
  low : Nat
  high : Nat
  closed : Bool

/-- Below a power of two the numbers lie twice as close, so the lower bound is nearer there. -/
def interval (m : Magnitude) : Interval where
  low := 4 * m.mantissa - if m.mantissa = hidden ∧ minExponent < m.exponent then 1 else 2
  high := 4 * m.mantissa + 2
  closed := m.mantissa % 2 == 0

/-- A quarter of the last place of `m`, as a fraction of `10 ^ power`. -/
def quarter (m : Magnitude) (power : Int) : Nat × Nat :=
  (Nat.pow 2 (m.exponent - 2).toNat * Nat.pow 10 (-power).toNat,
    Nat.pow 2 (2 - m.exponent).toNat * Nat.pow 10 power.toNat)

/-- Whether `digits · 10 ^ power` rounds to `m`. -/
def isReadFrom (m : Magnitude) (digits : Nat) (power : Int) : Bool :=
  let (num, den) := m.quarter power
  let i := m.interval
  if i.closed then i.low * num ≤ digits * den && digits * den ≤ i.high * num
  else i.low * num < digits * den && digits * den < i.high * num

/-- The multiple of `10 ^ power` nearest to `m`, if a neighbour of `m` there rounds to it. When both
do and are equally near, it is the upper one. -/
def nearest? (m : Magnitude) (power : Int) : Option Nat :=
  let (num, den) := m.quarter power
  let below := 4 * m.mantissa * num / den
  match m.isReadFrom below power, m.isReadFrom (below + 1) power with
  | false, false => none
  | true, false => some below
  | false, true => some (below + 1)
  | true, true =>
    if 2 * (4 * m.mantissa * num) < (2 * below + 1) * den then some below else some (below + 1)

/-- A power of ten above `m`. -/
def topPower (m : Magnitude) : Int :=
  (m.mantissa.log2 + 1 + m.exponent) * 30103 / 100000 + 1

/-- Digits and a power of ten: the shortest decimal that rounds to `m`. Zero is the digit zero. -/
def shortest (m : Magnitude) : Nat × Int :=
  if m.mantissa = 0 then (0, 0) else
  let powers := (List.range 25).map fun (i : Nat) => m.topPower - (i : Int)
  (powers.findSome? fun power => (m.nearest? power).map fun digits => (digits, power)).getD (0, 0)

end Magnitude

end MatrixLisp
