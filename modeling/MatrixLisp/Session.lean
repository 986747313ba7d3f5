import MatrixLisp.Eval.Evaluate
import MatrixLisp.Reader.Form

/-!
# Programs and sessions

Every program starts in a root frame, which binds the builtins and four literals. A program is
evaluated form by form in that frame and ends with its last value or at its first failure. A session
evaluates one line after another on the same machine.
-/
namespace MatrixLisp

namespace Session

/-- The bindings of the root frame that are not builtins. A semicolon stands for itself, so that it
can separate the rows of a matrix in an evaluated vector. -/
def literals : List (String × Value) :=
  [("true", .bool true), ("false", .bool false), ("nil", .nil), (";", .symbol ";")]

def builtins : List (String × Value) :=
  Builtin.all.map fun b => (b.name, .builtin b)

/-- The bindings that every program starts with. -/
def rootFrame : Frame := Frame.ofList (builtins ++ literals)

def rootScope : Scope := ⟨0, []⟩

/-- A machine with nothing but the root frame and a source of random numbers. -/
def startWith (source : Source) : Machine :=
  { store := Store.empty.push rootFrame, closures := 0, output := "", random := source }

/-- A machine that draws from the standard generator. -/
def start (seed : Nat) : Machine := startWith (.ofSeed seed)

theorem start_eq (seed : Nat) : start seed = startWith (.ofSeed seed) := rfl

/-- Evaluates forms in the root frame and gives the last value, or `nil` when there is none. -/
def evalAllWith (eval : Eval.Evaluator) : List Value → Run Value
  | [] => pure .nil
  | [form] => eval form rootScope
  | form :: rest => do
    let _ ← eval form rootScope
    evalAllWith eval rest

/-- Reads a line whole and then evaluates its forms. -/
def evalLineWith (eval : Eval.Evaluator) (line : String) : Run Value :=
  match Reader.readAll line with
  | .ok forms => evalAllWith eval (forms.map Prod.fst)
  | .error e => Run.raise e.fault

/-- Evaluates forms to the depth that `Eval.eval` allows. -/
def evalAll : List Value → Run Value := evalAllWith Eval.eval

/-- Evaluates a line to the depth that `Eval.eval` allows. -/
def evalLine : String → Run Value := evalLineWith Eval.eval

end Session

/-- A halt at a top-level form. -/
structure Failure where
  halt : Halt
  span : Span

namespace Program

/-- Evaluates the forms of a program in the root frame up to the first that fails. -/
def evalFormsWith (eval : Eval.Evaluator) :
    List Reader.Form → Value → Machine → Except Failure Value × Machine
  | [], last, m => (.ok last, m)
  | (form, span) :: rest, _, m =>
    match eval form Session.rootScope m with
    | (.ok v, m) => evalFormsWith eval rest v m
    | (.error h, m) => (.error ⟨h, span⟩, m)

/-- Evaluates a program to the depth that `Eval.eval` allows. -/
def evalForms : List Reader.Form → Value → Machine → Except Failure Value × Machine :=
  evalFormsWith Eval.eval

end Program

end MatrixLisp
