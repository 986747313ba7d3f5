import MatrixLisp.Eval.Machine
import MatrixLisp.Value.Operator

/-!
# What the builtins do

A call first checks the number of arguments and then the arguments one by one, from the left. The
builtins that draw random numbers do so from the machine, entry by entry in row-major order.
-/
namespace MatrixLisp.Builtin

def argument (args : List Value) (i : Nat) : Run Value :=
  match args[i]? with
  | some v => pure v
  | none => Run.halt (.crash .missingArgument)

def unexpected (b : Builtin) (expected : String) (got : Value) : Fault :=
  .argumentType b expected got.typeName

def itemsOf (b : Builtin) (v : Value) : Except Fault (List Value) :=
  match v.items? with
  | some items => .ok items
  | none => .error (b.unexpected "a list or vector" v)

/-- A numeric argument as a float. -/
def floatOf (b : Builtin) (v : Value) : Except Fault Float :=
  match v.float? with
  | some x => .ok x
  | none => .error (b.unexpected "a number" v)

def intOf (b : Builtin) (v : Value) : Except Fault Int64 :=
  match v.int? with
  | some n => .ok n
  | none => .error (b.unexpected "an integer" v)

/-- An integer argument that is a size. -/
def dimensionOf (b : Builtin) (v : Value) : Except Fault Nat := do
  let n ← b.intOf v
  if 0 ≤ n.toInt then .ok n.toInt.toNat else .error (.negativeDimension b n)

/-- The shape that the first two arguments give; a single one stands for a square. -/
def shapeOf (b : Builtin) (args : List Value) : Run (Nat × Nat) := do
  let rows ← Run.ofExcept (b.dimensionOf (← argument args 0))
  match args[1]? with
  | some v => return (rows, ← Run.ofExcept (b.dimensionOf v))
  | none => return (rows, rows)

/-- An optional argument, with a value for its absence. -/
def optional {α : Type} (args : List Value) (i : Nat) (absent : α)
    (convert : Value → Except Fault α) : Run α :=
  match args[i]? with
  | some v => Run.ofExcept (convert v)
  | none => pure absent

def segments (isSeparator : Value → Bool) (items : List Value) : List (List Value) :=
  items.splitOnP isSeparator

def isRowSeparator (v : Value) : Bool := v.symbol? == some ";"

/-- The matrix whose rows are the segments of a sequence. -/
def matrixOf (items : List Value) : Except Fault Matrix :=
  if items.isEmpty then .ok .empty
  else do
    let rows ← (segments isRowSeparator items).mapM fun row => row.mapM matrix.floatOf
    Matrix.ofRows rows

/-- The number of elements of a collection; a matrix counts its rows. -/
def lengthOf (b : Builtin) (v : Value) : Except Fault Nat :=
  match v with
  | .nil => .ok 0
  | .list items | .vector items => .ok items.length
  | .map entries => .ok entries.length
  | .numVector v => .ok v.size
  | .matrix m => .ok m.rows
  | v => .error (b.unexpected "a collection" v)

/-- An integer between two bounds, as a float. Equal bounds leave no choice. -/
def intBetween? (least greatest : Int64) (source : Source) : Option (Float × Source) :=
  if greatest = least then some (Float.ofInt least.toInt, source)
  else (source.int? least greatest).map (Prod.map (fun n => Float.ofInt n.toInt) id)

/-- A float between two bounds. Equal bounds leave no choice. -/
def floatBetween? (least greatest : Float) (source : Source) : Option (Float × Source) :=
  if greatest == least then some (least, source) else source.float? least greatest

/-- Draws a number of entries after those drawn already. -/
def drawMany (draw : Source → Option (Float × Source)) :
    Nat → Array Float → Source → Option (Array Float × Source)
  | 0, drawn, source => some (drawn, source)
  | n + 1, drawn, source =>
    match draw source with
    | some (x, source) => drawMany draw n (drawn.push x) source
    | none => none

/-- A matrix of drawn entries, if its shape is allowed. -/
def randomMatrix (shape : Nat × Nat) (draw : Source → Option (Float × Source)) : Run Matrix := do
  Run.ofExcept (Matrix.checkShape shape.1 shape.2)
  fun m =>
    match drawMany draw (shape.1 * shape.2) #[] m.random with
    | some (data, source) => (.ok ⟨shape.1, shape.2, data⟩, { m with random := source })
    | none => (.error (.crash .refusedBounds), m)

/-- The greatest bound of random integers when none is given. -/
def defaultGreatest : Int64 := 2147483647

def callRandomInts (args : List Value) : Run Value := do
  let shape ← randomInts.shapeOf args
  let least ← optional args 2 0 randomInts.intOf
  let greatest ← optional args 3 defaultGreatest randomInts.intOf
  if greatest.toInt < least.toInt then
    Run.raise (.reversedBounds randomInts (toString least.toInt) (toString greatest.toInt))
  else
    return .matrix (← randomMatrix shape (intBetween? least greatest))

def callRandomFloats (args : List Value) : Run Value := do
  let shape ← randomFloats.shapeOf args
  let least ← optional args 2 0.0 randomFloats.floatOf
  let greatest ← optional args 3 1.0 randomFloats.floatOf
  if !(least.isFinite && greatest.isFinite) then
    Run.raise (.infiniteBounds randomFloats)
  else if greatest < least then
    Run.raise (.reversedBounds randomFloats (FloatText.plain least) (FloatText.plain greatest))
  else
    return .matrix (← randomMatrix shape (floatBetween? least greatest))

def callOperator (op : Operator) (args : List Value) : Run Value := do
  let a ← argument args 0
  let b ← argument args 1
  Run.ofExcept (a.binary op b)

/-- The matrix product, or the inner product of two vectors. -/
def multiply (a b : Value) : Except Fault Value :=
  match a, b with
  | .matrix a, .matrix b => (a.dot b).map .matrix
  | .numVector a, .numVector b => (a.dot b).map .float
  | a, b => .error (Value.operandFault product.name a b)

def countValue (n : Nat) : Except Fault Value :=
  match int64? n with
  | some w => .ok (.int w)
  | none => .error (.countTooLarge n)

/-- What a builtin does with its arguments. -/
def body (b : Builtin) (args : List Value) : Run Value :=
  match b with
  | add => callOperator (.arith .add) args
  | sub => callOperator (.arith .sub) args
  | mul => callOperator (.arith .mul) args
  | div => callOperator (.arith .div) args
  | product => do
    let a ← argument args 0
    let b ← argument args 1
    Run.ofExcept (multiply a b)
  | equal => callOperator .equal args
  | notEqual => callOperator .notEqual args
  | less => callOperator (.relation .less) args
  | lessEqual => callOperator (.relation .lessEqual) args
  | greater => callOperator (.relation .greater) args
  | greaterEqual => callOperator (.relation .greaterEqual) args
  | not => return .bool (!(← argument args 0).isTruthy)
  | print => do
    if !args.isEmpty then
      Run.print (" ".intercalate (args.map Value.render) ++ "\n")
    return .nil
  | numVector => do
    let items ← Run.ofExcept (numVector.itemsOf (← argument args 0))
    let data ← Run.ofExcept (items.mapM numVector.floatOf)
    return .numVector ⟨data.toArray⟩
  | matrix => do
    let items ← Run.ofExcept (matrix.itemsOf (← argument args 0))
    return .matrix (← Run.ofExcept (matrixOf items))
  | identity => do
    let n ← Run.ofExcept (identity.dimensionOf (← argument args 0))
    return .matrix (← Run.ofExcept (Matrix.identity n))
  | zeros => do
    let (rows, cols) ← zeros.shapeOf args
    return .matrix (← Run.ofExcept (Matrix.zeros rows cols))
  | randomInts => callRandomInts args
  | randomFloats => callRandomFloats args
  | transpose => do
    match ← argument args 0 with
    | .matrix m => return .matrix m.transpose
    | v => Run.raise (transpose.unexpected "a matrix" v)
  | list => return .list args
  | isList => do
    match ← argument args 0 with
    | .list _ => return .bool true
    | _ => return .bool false
  | isEmpty => do
    let n ← Run.ofExcept (isEmpty.lengthOf (← argument args 0))
    return .bool (n == 0)
  | count => do
    let n ← Run.ofExcept (count.lengthOf (← argument args 0))
    Run.ofExcept (countValue n)
  | typeOf => return .symbol (← argument args 0).typeName.text

def checkArity (name : String) (arity : Arity) (got : Nat) : Except Fault Unit :=
  if arity.accepts got then .ok () else .error (.arity name arity got)

def call (b : Builtin) (args : List Value) : Run Value := do
  Run.ofExcept (checkArity b.name b.arity args.length)
  b.body args

end MatrixLisp.Builtin
