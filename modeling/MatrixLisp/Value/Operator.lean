import MatrixLisp.Value.Equality

/-!
# Binary operators on values

Equality is defined on all values and order only on numbers. Arithmetic works on two numbers, on two
vectors or two matrices of one shape, and on a vector or matrix with a number on its right.
-/
namespace MatrixLisp

inductive Relation where
  | less
  | lessEqual
  | greater
  | greaterEqual
  deriving DecidableEq

namespace Relation

def symbol : Relation → String
  | less => "<"
  | lessEqual => "<="
  | greater => ">"
  | greaterEqual => ">="

def holds : Relation → Ordering → Bool
  | less, o => o.isLT
  | lessEqual, o => o.isLE
  | greater, o => o.isGT
  | greaterEqual, o => o.isGE

end Relation

inductive Operator where
  | equal
  | notEqual
  | relation (r : Relation)
  | arith (op : Arith)
  deriving DecidableEq

namespace Operator

def symbol : Operator → String
  | equal => "="
  | notEqual => "!="
  | relation r => r.symbol
  | arith op => op.symbol

/-- Every operator: equality, order, arithmetic. -/
def all : List Operator :=
  [equal, notEqual, relation .less, relation .lessEqual, relation .greater, relation .greaterEqual,
    arith .add, arith .sub, arith .mul, arith .div]

end Operator

namespace Value

/-- The fault of an operator that is not defined on two operands. -/
def operandFault (op : String) (a b : Value) : Fault := .operandTypes op a.typeName b.typeName

/-- Compares two numbers. Without an order, as with NaN, no relation holds. -/
def relate (r : Relation) (a b : Value) : Except Fault Value :=
  match a, b with
  | number x, number y => .ok (bool ((x.compare? y).any r.holds))
  | a, b => .error (operandFault r.symbol a b)

def calculate (op : Arith) (a b : Value) : Except Fault Value :=
  match a, b with
  | number x, number y => (x.apply op y).map number
  | numVector v, numVector w => (v.zipWith op w).map numVector
  | matrix m, matrix n => (m.zipWith op n).map matrix
  | numVector v, number y => (v.broadcast op y.toFloat).map numVector
  | matrix m, number y => (m.broadcast op y.toFloat).map matrix
  | a, b => .error (operandFault op.symbol a b)

def binary (op : Operator) (a b : Value) : Except Fault Value :=
  match op with
  | .equal => .ok (bool (a.equal b))
  | .notEqual => .ok (bool (!a.equal b))
  | .relation r => relate r a b
  | .arith op => calculate op a b

end Value

end MatrixLisp
