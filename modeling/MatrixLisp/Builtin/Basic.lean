/-!
# Builtin functions

The builtins form a fixed table: each has a name, under which it is bound and printed, and an arity.
What a builtin does is defined with the evaluator.
-/
namespace MatrixLisp

/-- How many arguments a function accepts. -/
inductive Arity where
  | exact (n : Nat)
  | range (least greatest : Nat)
  | atLeast (n : Nat)
  deriving DecidableEq

namespace Arity

def accepts : Arity → Nat → Bool
  | exact n, got => got == n
  | range least greatest, got => least ≤ got && got ≤ greatest
  | atLeast n, got => n ≤ got

def text : Arity → String
  | exact n => toString n
  | range least greatest => s!"{least} to {greatest}"
  | atLeast n => s!"at least {n}"

end Arity

inductive Builtin where
  | add
  | sub
  | mul
  | div
  | product
  | equal
  | notEqual
  | less
  | lessEqual
  | greater
  | greaterEqual
  | not
  | print
  | numVector
  | matrix
  | identity
  | zeros
  | randomInts
  | randomFloats
  | transpose
  | list
  | isList
  | isEmpty
  | count
  | typeOf
  deriving DecidableEq

namespace Builtin

def name : Builtin → String
  | add => "+"
  | sub => "-"
  | mul => "*"
  | div => "/"
  | product => "**"
  | equal => "="
  | notEqual => "!="
  | less => "<"
  | lessEqual => "<="
  | greater => ">"
  | greaterEqual => ">="
  | not => "not"
  | print => "prn"
  | numVector => "nvector"
  | matrix => "matrix"
  | identity => "eye"
  | zeros => "zeros"
  | randomInts => "randmat"
  | randomFloats => "randmatf"
  | transpose => "transpose"
  | list => "list"
  | isList => "list?"
  | isEmpty => "empty?"
  | count => "count"
  | typeOf => "type?"

def arity : Builtin → Arity
  | not | numVector | matrix | identity | transpose | isList | isEmpty | count | typeOf => .exact 1
  | print | list => .atLeast 0
  | zeros => .range 1 2
  | randomInts | randomFloats => .range 1 4
  | _ => .exact 2

/-- Every builtin, in the order of the library's table. -/
def all : List Builtin :=
  [add, sub, mul, div, product, equal, notEqual, less, lessEqual, greater, greaterEqual, not, print,
    numVector, matrix, identity, zeros, randomInts, randomFloats, transpose, list, isList, isEmpty,
    count, typeOf]

end Builtin

end MatrixLisp
