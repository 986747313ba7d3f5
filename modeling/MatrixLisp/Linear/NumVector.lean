import MatrixLisp.Number.Arithmetic

/-!
# Numeric vectors

A numeric vector is a dense sequence of floats. Operations work element by element; a fault is that
of the first element that fails.
-/
namespace MatrixLisp

/-- A dense sequence of floats. -/
structure NumVector where
  data : Array Float
  deriving BEq

/-- The sum of floats from left to right. It starts from negative zero, the neutral element of float
addition. -/
def sumFloats (xs : List Float) : Float := xs.foldl (· + ·) (-0.0)

/-- The operator on the elements at equal positions. -/
def Arith.zipFloats (op : Arith) (xs ys : Array Float) : Except Fault (Array Float) :=
  ((List.zipWith op.applyFloat xs.toList ys.toList).mapM id).map List.toArray

/-- The operator on every element, with one right operand. -/
def Arith.broadcastFloats (op : Arith) (xs : Array Float) (y : Float) :
    Except Fault (Array Float) :=
  (xs.toList.mapM fun x => op.applyFloat x y).map List.toArray

def nearlyEqualFloats (xs ys : Array Float) : Bool :=
  xs.size == ys.size && (List.zipWith nearlyEqual xs.toList ys.toList).and

namespace NumVector

def size (v : NumVector) : Nat := v.data.size

def get? (v : NumVector) (i : Nat) : Option Float := v.data[i]?

def nearlyEqual (v w : NumVector) : Bool := nearlyEqualFloats v.data w.data

/-- The operator on the elements of two vectors of one length. -/
def zipWith (op : Arith) (v w : NumVector) : Except Fault NumVector :=
  if v.size = w.size then (op.zipFloats v.data w.data).map NumVector.mk
  else .error (.vectorLengths v.size w.size)

/-- The operator with the same right operand for every element. -/
def broadcast (op : Arith) (v : NumVector) (y : Float) : Except Fault NumVector :=
  (op.broadcastFloats v.data y).map NumVector.mk

def dot (v w : NumVector) : Except Fault Float :=
  if v.size = w.size then
    .ok (sumFloats (List.zipWith (· * ·) v.data.toList w.data.toList))
  else .error (.vectorProduct v.size w.size)

def text (v : NumVector) : String :=
  "[" ++ " ".intercalate (v.data.toList.map FloatText.cell) ++ "]"

end NumVector

end MatrixLisp
