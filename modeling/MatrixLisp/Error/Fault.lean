import MatrixLisp.Builtin.Basic
import MatrixLisp.Error.Kind
import MatrixLisp.Eval.SpecialForm
import MatrixLisp.Number.Basic
import MatrixLisp.Token.Basic
import MatrixLisp.Value.TypeName

/-!
# Faults

A fault is the cause of a failure, with the data that its message quotes. Its kind and its wording
are functions of the cause, so that the rest of the library only names causes.
-/
namespace MatrixLisp

inductive Fault where
  /-- A closing bracket where none, or another one, is expected. -/
  | unexpectedCloser (bracket : Bracket)
  /-- A bracket that the end of the source leaves open. -/
  | unclosed (bracket : Bracket)
  /-- A mark at the end of the source. -/
  | missingForm (mark : Mark)
  /-- A map literal with a key and no value. -/
  | oddEntries (forms : Nat)
  | unterminatedString
  | unexpectedCharacter (text : String)
  /-- A number literal outside the 64-bit range. -/
  | literalTooLong (literal : String)
  | badFloatLiteral (literal : String)
  | zeroDenominator (numer : Int)
  /-- A fraction in lowest terms that does not fit in 64 bits. -/
  | fractionTooWide (numer denom : Int)
  | integerOverflow (op : Arith) (lhs rhs : Int64)
  | integerDivision (lhs rhs : Int64)
  | rationalDivision (lhs rhs : Rational)
  /-- A float divisor that is zero up to the tolerance. -/
  | floatDivision (lhs rhs : Float)
  | operandTypes (op : String) (lhs rhs : TypeName)
  /-- An argument of another type than a builtin expects. -/
  | argumentType (function : Builtin) (expected : String) (got : TypeName)
  | unbound (name : String)
  /-- A call of something that is no function, given as it is written. -/
  | notFunction (text : String)
  | arity (function : String) (arity : Arity) (got : Nat)
  | closureArity (expected got : Nat)
  | parameterType (got : TypeName)
  | formArity (form : SpecialForm) (expected got : Nat)
  | branchArity (got : Nat)
  | bindingName (form : SpecialForm) (got : TypeName) (text : String)
  | bindingShape (got : TypeName)
  | oddBindings (forms : Nat)
  | parameterShape (got : TypeName)
  | vectorLengths (lhs rhs : Nat)
  | vectorProduct (lhs rhs : Nat)
  | matrixShapes (op : Arith) (lhs rhs : Nat × Nat)
  | matrixProduct (lhs rhs : Nat × Nat)
  | raggedRow (row got expected : Nat)
  | matrixTooLarge (rows cols limit : Nat)
  | negativeDimension (function : Builtin) (got : Int64)
  | infiniteBounds (function : Builtin)
  | reversedBounds (function : Builtin) (least greatest : String)
  | countTooLarge (count : Nat)

namespace Fault

/-- The kind of failure that a cause leads to. -/
def kind : Fault → ErrorKind
  | unexpectedCloser _ | unclosed _ | missingForm _ | oddEntries _ | unterminatedString
  | unexpectedCharacter _ | badFloatLiteral _ | formArity .. | branchArity _ | bindingName ..
  | bindingShape _ | oddBindings _ | parameterShape _ => .malformed
  | operandTypes .. | argumentType .. | arity .. | closureArity .. | parameterType _ => .wrongType
  | unbound _ | notFunction _ => .notFound
  | vectorLengths .. | vectorProduct .. | matrixShapes .. | matrixProduct .. | raggedRow ..
  | negativeDimension .. | infiniteBounds _ | reversedBounds .. => .badValue
  | literalTooLong _ | fractionTooWide .. | integerOverflow .. | matrixTooLarge ..
  | countTooLarge _ => .outOfRange
  | zeroDenominator _ | integerDivision .. | rationalDivision .. | floatDivision .. =>
    .divisionByZero

def shapeText (shape : Nat × Nat) : String := s!"{shape.1}x{shape.2}"

def message : Fault → String
  | unexpectedCloser b => "unexpected '" ++ b.closeText ++ "'"
  | unclosed b => "unclosed " ++ b.noun ++ ": '" ++ b.closeText ++ "' never closed"
  | missingForm m => "expected a form after '" ++ m.text ++ "'"
  | oddEntries n => s!"map literal has {n} forms, expected key/value pairs"
  | unterminatedString => "unterminated string"
  | unexpectedCharacter text => "unexpected character " ++ text.quote
  | literalTooLong literal => literal ++ " too long"
  | badFloatLiteral literal => "invalid float literal " ++ literal
  | zeroDenominator n => s!"{n}/0"
  | fractionTooWide n d => s!"{n}/{d} does not fit in 64 bits"
  | integerOverflow op a b => s!"{a.toInt} {op.symbol} {b.toInt} overflows"
  | integerDivision a b => s!"{a.toInt} / {b.toInt}"
  | rationalDivision a b => a.text ++ " " ++ b.text
  | floatDivision a b => FloatText.plain a ++ " / " ++ FloatText.plain b
  | operandTypes op lhs rhs =>
    "invalid operands type for '" ++ op ++ "': " ++ lhs.text ++ " @ " ++ rhs.text
  | argumentType f expected got =>
    "'" ++ f.name ++ "' expects " ++ expected ++ ", got " ++ got.text
  | unbound name => "'" ++ name ++ "' not found"
  | notFunction text => "<function> " ++ text ++ "()"
  | arity f expected got => s!"'{f}' takes {expected.text} args, but {got} were given"
  | closureArity expected got => s!"expected {expected} args, but {got} were given"
  | parameterType got => "parameter must be a symbol, got " ++ got.text
  | formArity form expected got => s!"'{form.name}' takes {expected} args, but {got} were given"
  | branchArity got => s!"'if' takes 2 or 3 args, but {got} were given"
  | bindingName form got text =>
    "'" ++ form.name ++ "' expects a symbol to bind, got " ++ got.text ++ " " ++ text
  | bindingShape got => "'let*' bindings must be a list or vector, got " ++ got.text
  | oddBindings n => s!"'let*' bindings must come in pairs, got {n} forms"
  | parameterShape got => "'fn*' parameters must be a list or vector, got " ++ got.text
  | vectorLengths a b => s!"shape mismatch: nvectors of length {a} and {b}"
  | vectorProduct a b => s!"nvector sizes don't match: {a} ** {b}"
  | matrixShapes op a b =>
    "shape mismatch: " ++ shapeText a ++ " " ++ op.symbol ++ " " ++ shapeText b
  | matrixProduct a b => "matrix sizes don't match: " ++ shapeText a ++ " ** " ++ shapeText b
  | raggedRow row got expected =>
    s!"all rows in matrix must be the same size: row {row} has {got} columns, expected {expected}"
  | matrixTooLarge rows cols limit => s!"matrix of {rows}x{cols} exceeds {limit} elements"
  | negativeDimension f got =>
    s!"'{f.name}' dimension must be non-negative, got {got.toInt}"
  | infiniteBounds f => s!"'{f.name}' bounds must be finite"
  | reversedBounds f least greatest =>
    s!"'{f.name}' max must not be less than min, got min {least} and max {greatest}"
  | countTooLarge n => s!"count {n} too large"

def report (f : Fault) : Report := ⟨f.kind, f.message⟩

end Fault

end MatrixLisp
