import MatrixLisp.Eval.Machine
import MatrixLisp.Eval.SpecialForm

/-!
# The rules of evaluation

Each rule is given for one step: it takes the evaluation of smaller parts and what the builtins do
as arguments. Parts are evaluated from left to right, and a failure of one ends the whole. Shape
errors of special forms are found before anything is evaluated, except that the names in a `let*`
are looked at one by one.
-/
namespace MatrixLisp.Eval

/-- The evaluation of a form in a scope. -/
abbrev Evaluator := Value → Scope → Run Value

/-- What builtins do with their arguments. -/
abbrev Caller := Builtin → List Value → Run Value

variable (call : Caller) (eval : Evaluator)

/-- Evaluates forms in order and gives all their values. -/
def evalEach (scope : Scope) : List Value → Run (List Value)
  | [] => pure []
  | form :: rest => do
    let v ← eval form scope
    let vs ← evalEach scope rest
    return v :: vs

/-- Evaluates the values of a map in order and keeps its keys as they are. -/
def evalEntries (scope : Scope) : List (Value × Value) → Dict → Run Dict
  | [], d => pure d
  | (key, form) :: rest, d => do
    let v ← eval form scope
    evalEntries scope rest (d.insert key v)

/-- Evaluates forms in order and gives the last value, or a given one when there is no form. -/
def evalSequence (scope : Scope) : List Value → Value → Run Value
  | [], last => pure last
  | form :: rest, _ => do
    let v ← eval form scope
    evalSequence scope rest v

def nameOf (form : SpecialForm) (key : Value) : Except Fault String :=
  match key.symbol? with
  | some name => .ok name
  | none => .error (.bindingName form key.typeName key.render)

/-- `(def! name form)` binds a name in the innermost frame and gives its value. -/
def evalDefine (args : List Value) (scope : Scope) : Run Value :=
  match args with
  | [key, form] => do
    let name ← Run.ofExcept (nameOf .define key)
    let v ← eval form scope
    Run.bindName scope name v
    return v
  | _ => Run.raise (.formArity .define 2 args.length)

/-- Binds names in the innermost frame one after another; each sees those before it. -/
def bindEach (scope : Scope) : List (Value × Value) → Run Unit
  | [] => pure ()
  | (key, form) :: rest => do
    let name ← Run.ofExcept (nameOf .bindIn key)
    let v ← eval form scope
    Run.bindName scope name v
    bindEach scope rest

/-- `(let* [name form ...] body)` evaluates the body inside a frame of its own. -/
def evalBindIn (args : List Value) (scope : Scope) : Run Value :=
  match args with
  | [bindings, body] =>
    match bindings.items? with
    | some forms =>
      if forms.length % 2 = 0 then do
        let scope ← Run.enter scope
        bindEach eval scope (Dict.pairs forms)
        eval body scope
      else Run.raise (.oddBindings forms.length)
    | none => Run.raise (.bindingShape bindings.typeName)
  | _ => Run.raise (.formArity .bindIn 2 args.length)

/-- `(if condition then otherwise)` evaluates one of its branches; a missing one gives `nil`. -/
def evalBranch (args : List Value) (scope : Scope) : Run Value :=
  match args with
  | [condition, yes] => do
    if (← eval condition scope).isTruthy then eval yes scope else return .nil
  | [condition, yes, no] => do
    if (← eval condition scope).isTruthy then eval yes scope else eval no scope
  | _ => Run.raise (.branchArity args.length)

def checkParams : List Value → Except Fault Unit
  | [] => .ok ()
  | param :: rest => do
    let _ ← nameOf .function param
    checkParams rest

/-- `(fn* [param ...] body)` makes a closure. -/
def evalFunction (args : List Value) (scope : Scope) : Run Value :=
  match args with
  | [params, body] =>
    match params.items? with
    | some params => do
      Run.ofExcept (checkParams params)
      Run.makeClosure params body scope
    | none => Run.raise (.parameterShape params.typeName)
  | _ => Run.raise (.formArity .function 2 args.length)

/-- `(quote form)` gives the form itself. -/
def evalQuote (args : List Value) : Run Value :=
  match args with
  | [form] => pure form
  | _ => Run.raise (.formArity .quote 1 args.length)

def evalSpecial (form : SpecialForm) (args : List Value) (scope : Scope) : Run Value :=
  match form with
  | .define => evalDefine eval args scope
  | .bindIn => evalBindIn eval args scope
  | .sequence => evalSequence eval scope args .nil
  | .branch => evalBranch eval args scope
  | .function => evalFunction args scope
  | .quote => evalQuote args

/-- Evaluates the body of a closure in a new frame, which binds the parameters, inside the scope of
the closure. -/
def callClosure (params : List Value) (body : Value) (scope : Scope) (args : List Value) :
    Run Value := do
  let scope ← Run.enterCall scope params args
  eval body scope

def applyWith (function : Value) (args : List Value) : Run Value :=
  match function with
  | .builtin b => call b args
  | .closure _ params body scope => callClosure eval params body scope args
  | other => Run.raise (.notFunction other.render)

/-- Evaluates a form, given the evaluation of its parts. -/
def evalForm (form : Value) (scope : Scope) : Run Value :=
  match form with
  | .symbol name => Run.withStore (·.lookup scope name)
  | .list [] => pure form
  | .list (head :: tail) =>
    match head.symbol?.bind SpecialForm.ofName? with
    | some special => evalSpecial eval special tail scope
    | none => do
      let function ← eval head scope
      let args ← evalEach eval scope tail
      applyWith call eval function args
  | .vector items => return .vector (← evalEach eval scope items)
  | .map entries => return .map (← evalEntries eval scope entries [])
  | _ => pure form

end MatrixLisp.Eval
