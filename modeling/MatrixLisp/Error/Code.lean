/-!
# Error codes

Every diagnostic carries a code: seven for reading and six for evaluation. A code has a description
and, for some, a suggestion how to mend the source.
-/
namespace MatrixLisp

inductive ErrorCode where
  | unexpectedCharacter
  | unterminatedString
  | unclosedDelimiter
  | unexpectedDelimiter
  | oddMapEntries
  | literalOutOfRange
  | zeroDenominator
  | malformedForm
  | typeMismatch
  | unboundSymbol
  | invalidValue
  | numericOverflow
  | divisionByZero
  deriving DecidableEq

namespace ErrorCode

def text : ErrorCode → String
  | unexpectedCharacter => "E0001"
  | unterminatedString => "E0002"
  | unclosedDelimiter => "E0003"
  | unexpectedDelimiter => "E0004"
  | oddMapEntries => "E0005"
  | literalOutOfRange => "E0006"
  | zeroDenominator => "E0007"
  | malformedForm => "E0100"
  | typeMismatch => "E0101"
  | unboundSymbol => "E0102"
  | invalidValue => "E0103"
  | numericOverflow => "E0104"
  | divisionByZero => "E0105"

def description : ErrorCode → String
  | unexpectedCharacter => "unexpected character in input"
  | unterminatedString => "string literal is not terminated"
  | unclosedDelimiter => "unclosed delimiter"
  | unexpectedDelimiter => "unexpected closing delimiter"
  | oddMapEntries => "map literal has a key without a value"
  | literalOutOfRange => "number literal does not fit in 64 bits"
  | zeroDenominator => "rational literal has a zero denominator"
  | malformedForm => "malformed special form"
  | typeMismatch => "operand has the wrong type"
  | unboundSymbol => "symbol is not bound in this scope"
  | invalidValue => "value is structurally valid but not acceptable here"
  | numericOverflow => "arithmetic result does not fit in 64 bits"
  | divisionByZero => "division by zero"

/-- How the source can be mended. -/
def suggestion? : ErrorCode → Option String
  | unterminatedString => some "add a closing quote `\"` to terminate the string"
  | unclosedDelimiter => some "add the matching closing delimiter"
  | unexpectedDelimiter => some "remove the extra delimiter or add its opening pair"
  | oddMapEntries =>
    some "map literals need an even number of forms: `\x7bk1 v1 k2 v2\x7d`"
  | unboundSymbol => some "check the spelling or bind it first with `def!`"
  | _ => none

def all : List ErrorCode :=
  [unexpectedCharacter, unterminatedString, unclosedDelimiter, unexpectedDelimiter, oddMapEntries,
    literalOutOfRange, zeroDenominator, malformedForm, typeMismatch, unboundSymbol, invalidValue,
    numericOverflow, divisionByZero]

end ErrorCode

end MatrixLisp
