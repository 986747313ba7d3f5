import MatrixLisp.Decimal.Shortest

/-!
# The text of floats

Three ways to write a float. `plain` gives the shortest digits that read back, always positional.
`literal` keeps a decimal point, so that the text of a finite float reads as a float again. `cell`
is for the entries of vectors and matrices, where a whole number is written as an integer.
-/
namespace MatrixLisp.FloatText

/-- The text of `digits · 10 ^ power` without an exponent. -/
def positional (digits : Nat) (power : Int) : String :=
  let ds := Nat.toDigits 10 digits
  if 0 ≤ power then String.ofList (ds ++ List.replicate power.toNat '0')
  else
    let places := (-power).toNat
    let padded := List.replicate (places + 1 - ds.length) '0' ++ ds
    let whole := padded.take (padded.length - places)
    let part := padded.drop (padded.length - places)
    String.ofList (whole ++ '.' :: part)

def magnitude (x : Float) : Magnitude :=
  .ofBits x.toBits.toNat

/-- The sign of a float as it is written; a negative zero has one. -/
def sign (x : Float) : String :=
  if 0x8000000000000000 ≤ x.toBits then "-" else ""

/-- The shortest digits that read back as the same float, never with an exponent. -/
def plain (x : Float) : String :=
  if x.isNaN then "NaN"
  else if x.isFinite then
    let (digits, power) := (magnitude x).shortest
    sign x ++ positional digits power
  else sign x ++ "inf"

/-- A finite float without a fractional part. -/
def isWhole (x : Float) : Bool :=
  x.isFinite && (magnitude x).isWhole

/-- A whole number is written with all its digits and one decimal, any other float plainly. -/
def literal (x : Float) : String :=
  if isWhole x then sign x ++ toString (magnitude x).floor ++ ".0" else plain x

/-- Whole entries from here on are written plainly. -/
def cellLimit : Nat := 1000000000000000

/-- A whole number below the limit is written as an integer, where zero has no sign, and any other
float plainly. -/
def cell (x : Float) : String :=
  let n := (magnitude x).floor
  if isWhole x && n < cellLimit then (if n = 0 then "0" else sign x ++ toString n) else plain x

end MatrixLisp.FloatText
