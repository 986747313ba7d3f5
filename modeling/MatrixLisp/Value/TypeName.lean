/-!
# Type names

Every value has a type name, which programs can ask for and which error messages quote. The name of
a matrix tells its shape.
-/
namespace MatrixLisp

inductive TypeName where
  | symbol
  | integer
  | float
  | rational
  | bool
  | nil
  | list
  | vector
  | map
  | function
  | numVector
  | matrix (rows cols : Nat)
  deriving DecidableEq

def TypeName.text : TypeName → String
  | symbol => "<Symbol>"
  | integer => "<Integer>"
  | float => "<Float>"
  | rational => "<Rational>"
  | bool => "<Bool>"
  | nil => "<Nil>"
  | list => "<List>"
  | vector => "<Vector>"
  | map => "<HashMap>"
  | function => "<Function>"
  | numVector => "<Nvector>"
  | matrix rows cols => s!"Matrix({rows},{cols})"

end MatrixLisp
