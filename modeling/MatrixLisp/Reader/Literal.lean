import MatrixLisp.Value.Basic

/-!
# Atoms

An atom is a fraction, a decimal, an integer or, failing these, a symbol. The three number shapes
are `[+-]?d+/d+`, `[+-]?(d+.d*|.d+)` and `[+-]?d+` over the ASCII digits. The shape decides what an
atom is; its value may then still be out of range.
-/
namespace MatrixLisp.Literal

def isDigits (cs : List Char) : Bool := !cs.isEmpty && cs.all Char.isDigit

def digitsValue (cs : List Char) : Nat :=
  cs.foldl (fun n c => 10 * n + (c.toNat - '0'.toNat)) 0

/-- Splits off a sign: whether it is a minus, and what follows. -/
def splitSign : List Char → Bool × List Char
  | '-' :: cs => (true, cs)
  | '+' :: cs => (false, cs)
  | cs => (false, cs)

/-- The parts before and after the first occurrence of a character. -/
def splitAt? (c : Char) (cs : List Char) : Option (List Char × List Char) :=
  match cs.dropWhile (· != c) with
  | [] => none
  | _ :: after => some (cs.takeWhile (· != c), after)

/-- The shape `[+-]?d+`. -/
def isInteger (cs : List Char) : Bool := isDigits (splitSign cs).2

/-- The shape `[+-]?(d+.d*|.d+)`. -/
def isDecimal (cs : List Char) : Bool :=
  match splitAt? '.' (splitSign cs).2 with
  | some (whole, part) =>
    (isDigits whole && (part.isEmpty || isDigits part)) || (whole.isEmpty && isDigits part)
  | none => false

/-- The numerator and the denominator of the shape `[+-]?d+/d+`. -/
def fraction? (cs : List Char) : Option (List Char × List Char) :=
  match splitAt? '/' cs with
  | some (numer, denom) => if isInteger numer && isDigits denom then some (numer, denom) else none
  | none => none

def integerValue (cs : List Char) : Int :=
  let (negative, digits) := splitSign cs
  if negative then -(digitsValue digits : Int) else digitsValue digits

/-- The float nearest to a decimal, if the text is one. -/
def decimalValue? (cs : List Char) : Option Float :=
  let (negative, unsigned) := splitSign cs
  match splitAt? '.' unsigned with
  | some (whole, part) =>
    let digits := whole ++ part
    if isDigits digits then
      let x := Float.ofScientific (digitsValue digits) true part.length
      some (if negative then -x else x)
    else none
  | none => none

/-- The value of an atom. -/
def classify (token : String) : Except Fault Value :=
  let cs := token.toList
  match fraction? cs with
  | some (numer, denom) =>
    match int64? (integerValue numer), int64? (integerValue denom) with
    | some n, some d =>
      (Rational.ofFraction n.toInt d.toInt).map fun q => .number (.rational q)
    | _, _ => .error (.literalTooLong token)
  | none =>
    if isDecimal cs then
      match decimalValue? cs with
      | some x => if x.isFinite then .ok (.float x) else .error (.literalTooLong token)
      | none => .error (.badFloatLiteral token)
    else if isInteger cs then
      match int64? (integerValue cs) with
      | some n => .ok (.int n)
      | none => .error (.literalTooLong token)
    else .ok (.symbol token)

end MatrixLisp.Literal
