import MatrixLisp.Eval.Store
import MatrixLisp.Random
import MatrixLisp.Value.Dict

/-!
# The machine

Evaluation reads and changes a machine: the store, the number of closures made so far, the text
printed so far and a source of random numbers. A run ends with a value or halts; either way the
machine keeps what was done to it up to that point.
-/
namespace MatrixLisp

/-- Why a run is abandoned although the program raised no failure. -/
inductive Crash where
  /-- A builtin asked for an argument that it was not given. -/
  | missingArgument
  /-- A random number was to be drawn between bounds that the generator refuses. -/
  | refusedBounds
  deriving DecidableEq

/-- Why a run ends without a value. -/
inductive Halt where
  /-- A failure of the program. -/
  | fault (f : Fault)
  /-- Evaluation is nested deeper than allowed. -/
  | tooDeep
  | crash (c : Crash)

structure Machine where
  store : Store
  closures : Nat
  output : String
  random : Source

/-- A computation on the machine. -/
def Run (α : Type) : Type := Machine → Except Halt α × Machine

namespace Run

variable {α β : Type}

/-- Ends with a value. -/
@[inline]
protected def pure (a : α) : Run α := fun m => (.ok a, m)

/-- Runs one computation after another. -/
@[inline]
protected def bind (x : Run α) (f : α → Run β) : Run β := fun m =>
  match x m with
  | (.ok a, m) => f a m
  | (.error h, m) => (.error h, m)

instance : Monad Run where
  pure := Run.pure
  bind := Run.bind

theorem pure_apply (a : α) (m : Machine) : (pure a : Run α) m = (.ok a, m) := rfl

theorem bind_apply (x : Run α) (f : α → Run β) (m : Machine) :
    (x >>= f) m =
      match x m with
      | (.ok a, m) => f a m
      | (.error h, m) => (.error h, m) := rfl

theorem bind_apply_of_ok {x : Run α} {a : α} {m m' : Machine} (f : α → Run β)
    (h : x m = (.ok a, m')) : (x >>= f) m = f a m' := by
  rw [bind_apply, h]

theorem bind_apply_of_error {x : Run α} {e : Halt} {m m' : Machine} (f : α → Run β)
    (h : x m = (.error e, m')) : (x >>= f) m = (.error e, m') := by
  rw [bind_apply, h]

theorem bind_eq_ok_iff {x : Run α} {f : α → Run β} {m m' : Machine} {b : β} :
    (x >>= f) m = (.ok b, m') ↔ ∃ a m₁, x m = (.ok a, m₁) ∧ f a m₁ = (.ok b, m') := by
  rcases hx : x m with ⟨_ | a, m₁⟩
  · simp [bind_apply_of_error f hx]
  · simp [bind_apply_of_ok f hx, and_assoc]

theorem bind_eq_error_iff {x : Run α} {f : α → Run β} {m m' : Machine} {h : Halt} :
    (x >>= f) m = (.error h, m') ↔
      x m = (.error h, m') ∨ ∃ a m₁, x m = (.ok a, m₁) ∧ f a m₁ = (.error h, m') := by
  rcases hx : x m with ⟨_ | a, m₁⟩
  · simp [bind_apply_of_error f hx]
  · simp [bind_apply_of_ok f hx, and_assoc]

instance : LawfulMonad Run := .mk' Run
  (fun x => funext fun m => by
    show (x >>= pure) m = x m
    rw [bind_apply]
    rcases x m with ⟨_ | a, m₁⟩ <;> rfl)
  (fun _ _ => rfl)
  (fun x f g => funext fun m => by
    rw [bind_apply, bind_apply, bind_apply]
    rcases x m with ⟨_ | a, m₁⟩ <;> rfl)

/-- Ends without a value. -/
def halt (h : Halt) : Run α := fun m => (.error h, m)

def raise (f : Fault) : Run α := halt (.fault f)

/-- A computation that only gives a value or a failure. -/
def ofExcept : Except Fault α → Run α
  | .ok a => Run.pure a
  | .error f => raise f

def withStore (f : Store → Except Fault α) : Run α := fun m => ofExcept (f m.store) m

def bindName (scope : Scope) (name : String) (value : Value) : Run Unit := fun m =>
  (.ok (), { m with store := m.store.bind scope name value })

def enter (scope : Scope) : Run Scope := fun m =>
  let (inner, store) := m.store.nest scope []
  (.ok inner, { m with store := store })

def enterCall (scope : Scope) (params args : List Value) : Run Scope := fun m =>
  match m.store.nestCall scope params args with
  | .ok (inner, store) => (.ok inner, { m with store := store })
  | .error f => (.error (.fault f), m)

/-- Makes a closure that differs from all earlier ones. -/
def makeClosure (params : List Value) (body : Value) (scope : Scope) : Run Value := fun m =>
  (.ok (.closure m.closures params body scope), { m with closures := m.closures + 1 })

def print (text : String) : Run Unit := fun m =>
  (.ok (), { m with output := m.output ++ text })

end Run

end MatrixLisp
