import MatrixLisp.Builtin.Call
import MatrixLisp.Eval.Rules

/-!
# Evaluation

`evalDepth n` evaluates with at most `n` nested evaluations; a deeper program halts. `eval` and
`apply` allow a fixed depth, which only unbounded recursion exceeds.
-/
namespace MatrixLisp.Eval

/-- Evaluates a form with at most `n` nested evaluations, given what the builtins do. -/
def evalDepthWith (call : Caller) : Nat → Evaluator
  | 0, _, _ => Run.halt .tooDeep
  | n + 1, form, scope => evalForm call (evalDepthWith call n) form scope

/-- Evaluates a form with at most `n` nested evaluations. -/
def evalDepth (n : Nat) : Evaluator := evalDepthWith Builtin.call n

/-- The depth that `eval` allows. -/
def maxDepth : Nat := 100000

def eval : Evaluator := evalDepth maxDepth

def apply (function : Value) (args : List Value) : Run Value :=
  applyWith Builtin.call eval function args

end MatrixLisp.Eval
