import MatrixLisp.Builtin.Basic
import MatrixLisp.Linear.Matrix
import MatrixLisp.Value.TypeName

/-!
# Values

Everything that is read, evaluated or stored is a value: programs are values too. A map keeps its
entries in the order in which their keys first came. A closure carries an identity of its own and
the chain of frames in which it was made.
-/
namespace MatrixLisp

/-- A frame of bindings, by its position in the store. -/
abbrev FrameId := Nat

/-- A chain of frames: the innermost frame, where definitions go, and the frames around it. -/
structure Scope where
  inner : FrameId
  outer : List FrameId
  deriving DecidableEq

namespace Scope

def chain (s : Scope) : List FrameId := s.inner :: s.outer

/-- The chain without its innermost frame. -/
def parent? (s : Scope) : Option Scope :=
  match s.outer with
  | [] => none
  | inner :: outer => some ⟨inner, outer⟩

def extend (s : Scope) (inner : FrameId) : Scope := ⟨inner, s.chain⟩

end Scope

inductive Value where
  | symbol (name : String)
  | number (n : Number)
  | bool (b : Bool)
  | nil
  | list (items : List Value)
  | vector (items : List Value)
  | map (entries : List (Value × Value))
  | builtin (b : Builtin)
  | closure (id : Nat) (params : List Value) (body : Value) (scope : Scope)
  | numVector (v : NumVector)
  | matrix (m : Matrix)

namespace Value

instance : Inhabited Value := ⟨nil⟩

abbrev int (n : Int64) : Value := number (.int n)

abbrev float (x : Float) : Value := number (.float x)

def typeName : Value → TypeName
  | symbol _ => .symbol
  | number (.int _) => .integer
  | number (.float _) => .float
  | number (.rational _) => .rational
  | bool _ => .bool
  | nil => .nil
  | list _ => .list
  | vector _ => .vector
  | map _ => .map
  | builtin _ => .function
  | closure .. => .function
  | numVector _ => .numVector
  | matrix m => .matrix m.rows m.cols

/-- Every value counts as true except `nil` and `false`. -/
def isTruthy : Value → Bool
  | nil | bool false => false
  | _ => true

def isFunction : Value → Bool
  | builtin _ | closure .. => true
  | _ => false

def symbol? : Value → Option String
  | symbol name => some name
  | _ => none

def number? : Value → Option Number
  | number n => some n
  | _ => none

def int? : Value → Option Int64
  | number (.int n) => some n
  | _ => none

/-- A number as a float. -/
def float? (v : Value) : Option Float := v.number?.map Number.toFloat

/-- The items of a list or a vector. -/
def items? : Value → Option (List Value)
  | list items | vector items => some items
  | _ => none

end Value

end MatrixLisp
