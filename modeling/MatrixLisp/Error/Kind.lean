import MatrixLisp.Error.Code

/-!
# Error kinds and reports

A failure is reported as a kind and a message. The kind decides the label on the console, the phrase
before the message in a diagnostic, and the code.
-/
namespace MatrixLisp

inductive ErrorKind where
  /-- Malformed source, or a special form of the wrong shape. -/
  | malformed
  /-- An operand of the wrong type, or a wrong number of arguments. -/
  | wrongType
  /-- An unbound symbol, or a call of something that is no function. -/
  | notFound
  /-- An operand of the right type whose value is not acceptable. -/
  | badValue
  /-- A literal or a result outside the 64-bit range, or too large a matrix. -/
  | outOfRange
  | divisionByZero
  deriving DecidableEq

namespace ErrorKind

def label : ErrorKind → String
  | malformed => "SyntaxError"
  | wrongType => "TypeError"
  | notFound => "Not Found"
  | badValue => "ValueError"
  | outOfRange => "OutOfRange"
  | divisionByZero => "DivisionByZero"

def phrase : ErrorKind → String
  | malformed => "syntax error"
  | wrongType => "type error"
  | notFound => "not found"
  | badValue => "value error"
  | outOfRange => "out of range"
  | divisionByZero => "division by zero"

/-- The code of a failure of this kind during evaluation. -/
def code : ErrorKind → ErrorCode
  | malformed => .malformedForm
  | wrongType => .typeMismatch
  | notFound => .unboundSymbol
  | badValue => .invalidValue
  | outOfRange => .numericOverflow
  | divisionByZero => .divisionByZero

end ErrorKind

/-- What is told about a failure. -/
structure Report where
  kind : ErrorKind
  message : String
  deriving DecidableEq

namespace Report

def text (r : Report) : String := r.kind.phrase ++ ": " ++ r.message

def consoleText (r : Report) : String := "[" ++ r.kind.label ++ "]: " ++ r.message

end Report

end MatrixLisp
