import MatrixLisp.Value.Basic

/-!
# The text of values

`render` writes a value as programs print it. The text of a value that was read from source reads
as the same value again. Functions have a text that does not read back.
-/
namespace MatrixLisp.Value

mutual

def render : Value → String
  | symbol name => name
  | number n => n.text
  | bool b => if b then "true" else "false"
  | nil => "nil"
  | list items => "(" ++ " ".intercalate (renderItems items) ++ ")"
  | vector items => "[" ++ " ".intercalate (renderItems items) ++ "]"
  | map entries => "\x7b" ++ " ".intercalate (renderEntries entries) ++ "\x7d"
  | builtin b => "#<Function:" ++ b.name ++ ">"
  | closure .. => "#<Function>"
  | numVector v => v.text
  | matrix m => m.text

def renderItems : List Value → List String
  | [] => []
  | v :: rest => v.render :: renderItems rest

def renderEntries : List (Value × Value) → List String
  | [] => []
  | (k, v) :: rest => (k.render ++ " " ++ v.render) :: renderEntries rest

end

/-- The value as it is shown for inspection: symbols and numbers are named as such. -/
def inspectText : Value → String
  | symbol name => "Symbol(" ++ name ++ ")"
  | number (.int n) => s!"Int({n.toInt})"
  | number (.float x) => "Float(" ++ FloatText.plain x ++ ")"
  | number (.rational q) => "Rational(" ++ q.text ++ ")"
  | v => v.render

end MatrixLisp.Value
