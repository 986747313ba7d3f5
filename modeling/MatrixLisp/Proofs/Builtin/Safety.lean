import MatrixLisp.Proofs.Builtin.Draws
import MatrixLisp.Proofs.Builtin.Effects
import MatrixLisp.Proofs.Value.Checked

/-!
# Builtins within the words

Here the builtins are written with every access and every operation on words checked: the arguments by
their positions, the entries of matrices and maps, the lengths of new buffers and the wide words of
fractions. A run that fails a check has no outcome at all. The number of arguments is checked before all
else, and no body runs if it is wrong. With a right number of well-formed arguments every check is passed,
and the call ends with a value or a fault. The one exception is a product of matrices that is so large that
the number of its entries is no word.
-/
namespace MatrixLisp

open IndexType (word)

/-- A computation on the machine that may fail a check. -/
def Checked (α : Type) : Type := Machine → Option (Except Halt α × Machine)

namespace Checked

variable {α β : Type}

/-- Ends with a value. -/
protected def pure (a : α) : Checked α := fun m => some (.ok a, m)

/-- Runs one computation after another. -/
protected def bind (x : Checked α) (f : α → Checked β) : Checked β := fun m =>
  match x m with
  | some (.ok a, m) => f a m
  | some (.error e, m) => some (.error e, m)
  | none => none

instance : Monad Checked where
  pure := Checked.pure
  bind := Checked.bind

/-- A run without checks. -/
def run (x : Run α) : Checked α := fun m => some (x m)

def ofExcept (r : Except Fault α) : Checked α := run (Run.ofExcept r)

def raise (f : Fault) : Checked α := run (Run.raise f)

/-- What an access or an operation gives. -/
def access (o : Option α) : Checked α := fun m => o.map fun a => (.ok a, m)

/-! ## Bodies -/

def argument (args : List Value) (i : ℕ) : Checked Value := access args[i]?

def shapeOf (b : Builtin) (args : List Value) : Checked (ℕ × ℕ) := do
  let rows ← ofExcept (b.dimensionOf (← argument args 0))
  match args[1]? with
  | some v => return (rows, ← ofExcept (b.dimensionOf v))
  | none => return (rows, rows)

def randomMatrix (shape : ℕ × ℕ) (draw : Source → Option (Float × Source)) :
    Checked Matrix := do
  let _ ← ofExcept (Word.checkLength shape.1 shape.2)
  let n ← access (word.mul? shape.1 shape.2)
  run fun m =>
    match Builtin.drawMany draw n #[] m.random with
    | some (data, source) => (.ok ⟨shape.1, shape.2, data⟩, { m with random := source })
    | none => (.error (.crash .refusedBounds), m)

def callRandomInts (args : List Value) : Checked Value := do
  let shape ← shapeOf .randomInts args
  let least ← run (Builtin.optional args 2 0 Builtin.randomInts.intOf)
  let greatest ← run (Builtin.optional args 3 Builtin.defaultGreatest Builtin.randomInts.intOf)
  if greatest.toInt < least.toInt then
    raise (.reversedBounds .randomInts (toString least.toInt) (toString greatest.toInt))
  else
    return .matrix (← randomMatrix shape (Builtin.intBetween? least greatest))

def callRandomFloats (args : List Value) : Checked Value := do
  let shape ← shapeOf .randomFloats args
  let least ← run (Builtin.optional args 2 0.0 Builtin.randomFloats.floatOf)
  let greatest ← run (Builtin.optional args 3 1.0 Builtin.randomFloats.floatOf)
  if !(least.isFinite && greatest.isFinite) then raise (.infiniteBounds .randomFloats)
  else if greatest < least then
    raise (.reversedBounds .randomFloats (FloatText.plain least) (FloatText.plain greatest))
  else
    return .matrix (← randomMatrix shape (Builtin.floatBetween? least greatest))

def callOperator (op : Operator) (args : List Value) : Checked Value := do
  let a ← argument args 0
  let b ← argument args 1
  ofExcept (← access (a.binary? op b))

def multiply? (a b : Value) : Option (Except Fault Value) :=
  match a, b with
  | .matrix a, .matrix b => (word.dot? a b).map (Except.map .matrix)
  | a, b => some (Builtin.multiply a b)

def body (b : Builtin) (args : List Value) : Checked Value :=
  match b with
  | .add => callOperator (.arith .add) args
  | .sub => callOperator (.arith .sub) args
  | .mul => callOperator (.arith .mul) args
  | .div => callOperator (.arith .div) args
  | .product => do
    let a ← argument args 0
    let b ← argument args 1
    ofExcept (← access (multiply? a b))
  | .equal => callOperator .equal args
  | .notEqual => callOperator .notEqual args
  | .less => callOperator (.relation .less) args
  | .lessEqual => callOperator (.relation .lessEqual) args
  | .greater => callOperator (.relation .greater) args
  | .greaterEqual => callOperator (.relation .greaterEqual) args
  | .not => return .bool (!(← argument args 0).isTruthy)
  | .print => do
    if !args.isEmpty then
      let texts ← access (args.mapM Value.render?)
      run (Run.print (" ".intercalate texts ++ "\n"))
    return .nil
  | .numVector => do
    let items ← ofExcept (Builtin.numVector.itemsOf (← argument args 0))
    let data ← ofExcept (items.mapM Builtin.numVector.floatOf)
    return .numVector ⟨data.toArray⟩
  | .matrix => do
    let items ← ofExcept (Builtin.matrix.itemsOf (← argument args 0))
    return .matrix (← ofExcept (Builtin.matrixOf items))
  | .identity => do
    let n ← ofExcept (Builtin.identity.dimensionOf (← argument args 0))
    let m ← access (Word.ofFn? n n fun i j => if i = j then 1.0 else 0.0)
    return .matrix (← ofExcept m)
  | .zeros => do
    let (rows, cols) ← shapeOf .zeros args
    return .matrix (← ofExcept (Word.zeros rows cols))
  | .randomInts => callRandomInts args
  | .randomFloats => callRandomFloats args
  | .transpose => do
    match ← argument args 0 with
    | .matrix m => return .matrix (← access (word.transpose? m))
    | v => raise (Builtin.transpose.unexpected "a matrix" v)
  | .list => return .list args
  | .isList => do
    match ← argument args 0 with
    | .list _ => return .bool true
    | _ => return .bool false
  | .isEmpty => do
    let n ← ofExcept (Builtin.isEmpty.lengthOf (← argument args 0))
    return .bool (n == 0)
  | .count => do
    let n ← ofExcept (Builtin.count.lengthOf (← argument args 0))
    ofExcept (Builtin.countValue n)
  | .typeOf => return .symbol (← argument args 0).typeName.text

/-- A call of a builtin that has a body: the number of arguments comes first. -/
def call (b : Builtin) (body : List Value → Checked Value) (args : List Value) : Checked Value := do
  let _ ← ofExcept (Builtin.checkArity b.name b.arity args.length)
  body args

end Checked

/-! ## Numbers of arguments -/

namespace Arity

variable {n k least greatest : ℕ}

theorem length_of_exact (h : (exact n).accepts k = true) : k = n := beq_iff_eq.mp h

theorem length_pos_of_exact (h : (exact (n + 1)).accepts k = true) : 0 < k :=
  length_of_exact h ▸ n.succ_pos

theorem length_pos_of_range (h : (range (least + 1) greatest).accepts k = true) : 0 < k :=
  least.succ_pos.trans_le (of_decide_eq_true (Bool.and_eq_true_iff.mp h).1)

end Arity

/-! ## Runs that pass their checks -/

namespace Checked

variable {α β : Type}

/-- Every check is passed, and the computation does what a run does, which ends as described. -/
def Safe (P : α → Prop) (E : Halt → Prop) (x : Checked α) (y : Run α) : Prop :=
  ∀ m, x m = some (y m) ∧ Outcome P E (y m).1

variable {P : α → Prop} {Q : β → Prop} {E : Halt → Prop}

theorem Safe.bind {x : Checked α} {y : Run α} (h : Safe P E x y) {f : α → Checked β} {g : α → Run β}
    (hf : ∀ a, P a → Safe Q E (f a) (g a)) : Safe Q E (x >>= f) (y >>= g) := by
  intro m
  obtain ⟨hxy, hy⟩ := h m
  show (match x m with
    | some (.ok a, m) => f a m
    | some (.error e, m) => some (.error e, m)
    | none => none) = some ((y >>= g) m) ∧ Outcome Q E ((y >>= g) m).1
  rw [hxy]
  cases hr : y m with
  | mk r m' =>
    rw [hr] at hy
    cases r with
    | ok a =>
      rw [Run.bind_apply_of_ok g hr]
      exact hf a hy m'
    | error e =>
      rw [Run.bind_apply_of_error g hr]
      exact ⟨rfl, hy⟩

theorem safe_pure (a : α) : Safe (fun _ => True) E (pure a) (pure a) := fun _ => ⟨rfl, trivial⟩

theorem safe_run {x : Run α} (h : ∀ m, Outcome P E (x m).1) : Safe P E (run x) x :=
  fun m => ⟨rfl, h m⟩

theorem argument_safe {args : List Value} {i : ℕ} (hi : i < args.length) :
    Safe (fun v => args[i]? = some v) E (argument args i) (Builtin.argument args i) := by
  unfold argument Builtin.argument
  rw [List.getElem?_eq_getElem hi]
  exact fun _ => ⟨rfl, rfl⟩

theorem safe_print (text : String) :
    Safe (fun _ => True) E (run (Run.print text)) (Run.print text) := fun _ => ⟨rfl, trivial⟩

theorem access_some_bind (a : α) (f : α → Checked β) : access (some a) >>= f = f a := rfl

section

variable (hE : ∀ f, E (.fault f))
include hE

theorem safe_ofExcept (r : Except Fault α) :
    Safe (fun _ => True) E (ofExcept r) (Run.ofExcept r) := by
  cases r with
  | ok a => exact safe_pure a
  | error f => exact fun _ => ⟨rfl, hE f⟩

theorem safe_raise (f : Fault) : Safe P E (raise f) (Run.raise f) := fun _ => ⟨rfl, hE f⟩

theorem shapeOf_safe (b : Builtin) {args : List Value} (hargs : 0 < args.length) :
    Safe (fun _ => True) E (shapeOf b args) (b.shapeOf args) := by
  apply (argument_safe hargs).bind
  intro v _
  apply (safe_ofExcept hE (b.dimensionOf v)).bind
  intro rows _
  cases args[1]? with
  | some w => exact (safe_ofExcept hE (b.dimensionOf w)).bind fun _ _ => safe_pure _
  | none => exact safe_pure _

theorem optional_safe (args : List Value) (i : ℕ) (absent : α)
    (convert : Value → Except Fault α) :
    Safe (fun _ => True) E (run (Builtin.optional args i absent convert))
      (Builtin.optional args i absent convert) := by
  unfold Builtin.optional
  split
  · exact safe_ofExcept hE _
  · exact safe_pure absent

theorem callOperator_safe (op : Operator) {args : List Value} (hlength : args.length = 2)
    (hargs : ∀ v ∈ args, v.WellFormed ∧ v.Held) :
    Safe (fun _ => True) E (callOperator op args) (Builtin.callOperator op args) := by
  apply (argument_safe (i := 0) (by omega)).bind
  intro v hv
  apply (argument_safe (i := 1) (by omega)).bind
  intro w hw
  obtain ⟨hv, hvHeld⟩ := hargs v (List.mem_of_getElem? hv)
  obtain ⟨hw, hwHeld⟩ := hargs w (List.mem_of_getElem? hw)
  rw [Value.binary?_eq op hv hvHeld hw hwHeld, access_some_bind]
  exact safe_ofExcept hE _

section Draws

variable (hcrash : E (.crash .refusedBounds))
include hcrash

theorem randomMatrix_safe (shape : ℕ × ℕ) (draw : Source → Option (Float × Source)) :
    Safe (fun _ => True) E (randomMatrix shape draw) (Builtin.randomMatrix shape draw) := by
  unfold randomMatrix Builtin.randomMatrix
  rw [Word.checkLength_eq]
  cases hshape : Matrix.checkShape shape.1 shape.2 with
  | error f => exact safe_raise hE f
  | ok =>
    rw [IndexType.mul?, IndexType.check_of_fits (Matrix.fits_of_allowed hshape)]
    refine safe_run fun m => ?_
    cases Builtin.drawMany draw (shape.1 * shape.2) #[] m.random with
    | some drawn => trivial
    | none => exact hcrash

theorem callRandomInts_safe {args : List Value} (hargs : 0 < args.length) :
    Safe (fun _ => True) E (callRandomInts args) (Builtin.callRandomInts args) := by
  apply (shapeOf_safe hE .randomInts hargs).bind
  intro shape _
  apply (optional_safe hE args 2 0 Builtin.randomInts.intOf).bind
  intro least _
  apply (optional_safe hE args 3 Builtin.defaultGreatest Builtin.randomInts.intOf).bind
  intro greatest _
  split
  · exact safe_raise hE _
  · exact (randomMatrix_safe hE hcrash shape _).bind fun _ _ => safe_pure _

theorem callRandomFloats_safe {args : List Value} (hargs : 0 < args.length) :
    Safe (fun _ => True) E (callRandomFloats args) (Builtin.callRandomFloats args) := by
  apply (shapeOf_safe hE .randomFloats hargs).bind
  intro shape _
  apply (optional_safe hE args 2 0.0 Builtin.randomFloats.floatOf).bind
  intro least _
  apply (optional_safe hE args 3 1.0 Builtin.randomFloats.floatOf).bind
  intro greatest _
  split
  · exact safe_raise hE _
  · split
    · exact safe_raise hE _
    · exact (randomMatrix_safe hE hcrash shape _).bind fun _ _ => safe_pure _

end Draws

end

/-- A product passes all checks if its entries can be counted. -/
theorem multiply?_eq {v w : Value} (hv : v.WellFormed) (hvHeld : v.Held) (hw : w.WellFormed)
    (hwHeld : w.Held) (hsides : ∀ a b, v = .matrix a → w = .matrix b → a.cols = b.rows →
      word.Fits (a.rows * b.cols)) :
    multiply? v w = some (Builtin.multiply v w) := by
  cases hv with
  | matrix ha =>
    cases hw with
    | matrix hb =>
      cases hvHeld with
      | matrix haCount =>
        cases hwHeld with
        | matrix hbCount =>
          rw [multiply?, IndexType.dot?_eq ha hb haCount hbCount (hsides _ _ rfl rfl)]
          rfl
    | _ => rfl
  | _ => rfl

end Checked

namespace Builtin

/-- A call ends without a value by a fault or, where random numbers are drawn, because the generator
refuses the bounds. -/
def Stops (b : Builtin) (h : Halt) : Prop :=
  (∃ f, h = .fault f) ∨ b.Draws ∧ h = .crash .refusedBounds

end Builtin

namespace Checked

theorem body_safe (b : Builtin) {args : List Value} (haccepts : b.arity.accepts args.length = true)
    (hargs : ∀ v ∈ args, v.WellFormed ∧ v.Held)
    (hsides : b = .product → ∀ x y, args = [.matrix x, .matrix y] → x.cols = y.rows →
      word.Fits (x.rows * y.cols)) :
    Safe (fun _ => True) b.Stops (body b args) (b.body args) := by
  have hE : ∀ f, b.Stops (.fault f) := fun f => .inl ⟨f, rfl⟩
  cases b with
  | add | sub | mul | div | equal | notEqual | less | lessEqual | greater | greaterEqual =>
    exact callOperator_safe hE _ (Arity.length_of_exact haccepts) hargs
  | product =>
    obtain ⟨v, w, rfl⟩ := List.length_eq_two.mp (Arity.length_of_exact haccepts)
    obtain ⟨hv, hvHeld⟩ := hargs v (List.mem_cons_self ..)
    obtain ⟨hw, hwHeld⟩ := hargs w (List.mem_cons_of_mem _ (List.mem_singleton_self _))
    show Safe _ _ (access (multiply? v w) >>= ofExcept) (Run.ofExcept (Builtin.multiply v w))
    -- No other builtin makes a matrix with more entries than were checked or are there already.
    rw [multiply?_eq hv hvHeld hw hwHeld ?_, access_some_bind]
    · exact safe_ofExcept hE _
    · rintro x y rfl rfl
      exact hsides rfl x y rfl
  | not | typeOf =>
    exact (argument_safe (Arity.length_pos_of_exact haccepts)).bind fun v _ => safe_pure _
  | print =>
    unfold body Builtin.body
    dsimp only
    split_ifs
    · rw [Collect.mapM_eq_some fun v hv => Value.render?_eq (hargs v hv).1 (hargs v hv).2]
      exact (safe_print _).bind fun _ _ => safe_pure _
    · exact safe_pure _
  | numVector | matrix =>
    apply (argument_safe (Arity.length_pos_of_exact haccepts)).bind
    intro v _
    apply (safe_ofExcept hE _).bind
    intro items _
    exact (safe_ofExcept hE _).bind fun _ _ => safe_pure _
  | identity =>
    apply (argument_safe (Arity.length_pos_of_exact haccepts)).bind
    intro v _
    apply (safe_ofExcept hE _).bind
    intro n _
    rw [Word.ofFn?_eq, access_some_bind]
    exact (safe_ofExcept hE _).bind fun m _ => safe_pure _
  | zeros =>
    apply (shapeOf_safe hE _ (Arity.length_pos_of_range haccepts)).bind
    intro shape _
    dsimp only
    rw [Word.zeros_eq]
    exact (safe_ofExcept hE _).bind fun m _ => safe_pure _
  | randomInts =>
    exact callRandomInts_safe hE (.inr ⟨.inl rfl, rfl⟩) (Arity.length_pos_of_range haccepts)
  | randomFloats =>
    exact callRandomFloats_safe hE (.inr ⟨.inr rfl, rfl⟩) (Arity.length_pos_of_range haccepts)
  | transpose =>
    apply (argument_safe (Arity.length_pos_of_exact haccepts)).bind
    intro v hv
    obtain ⟨hwf, hheld⟩ := hargs v (List.mem_of_getElem? hv)
    cases hwf with
    | matrix hm =>
      cases hheld with
      | matrix hcount =>
        dsimp only
        rw [IndexType.transpose?_eq hm hcount]
        exact safe_pure _
    | _ => exact safe_raise hE _
  | list => exact safe_pure _
  | isList =>
    apply (argument_safe (Arity.length_pos_of_exact haccepts)).bind
    intro v _
    cases v <;> exact safe_pure _
  | isEmpty =>
    apply (argument_safe (Arity.length_pos_of_exact haccepts)).bind
    intro v _
    exact (safe_ofExcept hE _).bind fun n _ => safe_pure _
  | count =>
    apply (argument_safe (Arity.length_pos_of_exact haccepts)).bind
    intro v _
    apply (safe_ofExcept hE _).bind
    intro n _
    exact safe_ofExcept hE _

theorem call_of_not_accepts {b : Builtin} {args : List Value}
    (h : b.arity.accepts args.length = false) (body : List Value → Checked Value) :
    call b body args = raise (.arity b.name b.arity args.length) := by
  rw [call, Builtin.checkArity, if_neg (Bool.not_eq_true _ ▸ h)]
  rfl

/-- Without the check of their number, an argument that is not there fails its access. -/
example (v : Value) (m : Machine) :
    body .add [v] m = none ∧ ∃ f, call .add (body .add) [v] m = some (.error (.fault f), m) :=
  ⟨rfl, _, rfl⟩

theorem call_of_accepts {b : Builtin} {args : List Value}
    (h : b.arity.accepts args.length = true) (body : List Value → Checked Value) :
    call b body args = body args := by
  rw [call, Builtin.checkArity, if_pos h]
  rfl

/-- The size of a product is computed before its entries are, and has to be a word. -/
theorem call_product_eq_none {x y : Matrix} (h : x.cols = y.rows)
    (hsize : 2 ^ 64 ≤ x.rows * y.cols) (m : Machine) :
    call .product (body .product) [.matrix x, .matrix y] m = none := by
  rw [call_of_accepts (by rfl)]
  show (access (multiply? (.matrix x) (.matrix y)) >>= ofExcept) m = none
  rw [multiply?, IndexType.dot?_eq_none h (not_lt.mpr hsize)]
  rfl

end Checked

namespace Builtin

/-- With a wrong number of arguments a call ends with a fault of the types, whatever the body is. With a
right number of well-formed arguments, every access and every operation of the body is in range. So every
call ends with a value or a fault, unless it draws from between bounds that the generator refuses. The
matrices in the arguments have entries that can be counted: others fit in no memory. The sides of a product
must be such that its entries can be counted as well. -/
theorem call_safe (b : Builtin) (args : List Value) (hargs : ∀ v ∈ args, v.WellFormed ∧ v.Held)
    (m : Machine) (hsides : b = product → ∀ x y, args = [.matrix x, .matrix y] →
      x.cols = y.rows → x.rows * y.cols < 2 ^ 64) :
    (b.arity.accepts args.length = false →
      ∃ f, f.kind = .wrongType ∧ call b args m = (.error (.fault f), m) ∧
        ∀ body, Checked.call b body args m = some (.error (.fault f), m)) ∧
    (b.arity.accepts args.length = true →
      Checked.call b (Checked.body b) args m = some (call b args m)) ∧
    Outcome (fun _ => True) b.Stops (call b args m).1 := by
  cases haccepts : b.arity.accepts args.length with
  | false =>
    have hcall := congrFun (call_of_not_accepts b args haccepts) m
    refine ⟨fun _ => ⟨_, rfl, hcall, fun body => ?_⟩, nofun, ?_⟩
    · exact congrFun (Checked.call_of_not_accepts haccepts body) m
    · rw [hcall]
      exact .inl ⟨_, rfl⟩
  | true =>
    have hbody := Checked.body_safe b haccepts hargs hsides m
    rw [← call_of_accepts b args haccepts] at hbody
    refine ⟨nofun, fun _ => ?_, hbody.2⟩
    rw [Checked.call_of_accepts haccepts]
    exact hbody.1

/-- A column of three entries and a row of two are multiplied within the words, and the column alone
is refused before any body runs. -/
theorem call_safe_thin : ∃ (a b : Matrix) (m : Machine), a.shape = (3, 1) ∧ b.shape = (1, 2) ∧
    Checked.call product (Checked.body product) [.matrix a, .matrix b] m =
      some (call product [.matrix a, .matrix b] m) ∧
    ∃ f, f.kind = .wrongType ∧
      Checked.call product (fun _ _ => none) [.matrix a] m = some (.error (.fault f), m) := by
  have hargs : ∀ rows cols x, rows * cols < 2 ^ 64 →
      (Value.matrix (.build rows cols fun _ _ => x)).WellFormed ∧
        (Value.matrix (.build rows cols fun _ _ => x)).Held := by
    intro rows cols x hsize
    have hbuild := Matrix.wellFormed_build rows cols fun _ _ => x
    exact ⟨.matrix hbuild, .matrix (hbuild.trans_lt hsize)⟩
  have hcolumn := hargs 3 1 1.0 (by decide)
  have hrow := hargs 1 2 2.0 (by decide)
  refine ⟨.build 3 1 fun _ _ => 1.0, .build 1 2 fun _ _ => 2.0, ⟨.empty, 0, "", .ofSeed 1⟩, rfl, rfl,
    (call_safe product _ ?_ _ fun _ x y hxy _ => ?_).2.1 rfl, ?_⟩
  · exact List.forall_mem_cons.mpr ⟨hcolumn, List.forall_mem_singleton.mpr hrow⟩
  · cases hxy
    exact (by decide : 3 * 2 < 2 ^ 64)
  · obtain ⟨f, hf, -, hbody⟩ := (call_safe product _ (List.forall_mem_singleton.mpr hcolumn)
      ⟨.empty, 0, "", .ofSeed 1⟩ fun _ _ _ => nofun).1 rfl
    exact ⟨f, hf, hbody _⟩

/-- Two matrices without entries have a product whose size is no word. Bounds of floats that are too far
apart are refused before anything is drawn. -/
theorem call_leaves_words :
    product.arity.accepts 2 = true ∧
    (∀ v ∈ [Value.matrix ⟨2 ^ 32, 0, #[]⟩, .matrix ⟨0, 2 ^ 32, #[]⟩], v.WellFormed ∧ v.Held) ∧
    (∀ m, Checked.call product (Checked.body product)
      [.matrix ⟨2 ^ 32, 0, #[]⟩, .matrix ⟨0, 2 ^ 32, #[]⟩] m = none) ∧
    randomFloats.arity.accepts 4 = true ∧
    ∃ m, m.random.generator.Lawful ∧
      call randomFloats [.int 1, .int 1, .float (-1e308), .float 1e308] m =
        (.error (.crash .refusedBounds), m) := by
  have hempty : ∀ rows cols, rows * cols = 0 →
      (Value.matrix ⟨rows, cols, #[]⟩).WellFormed ∧ (Value.matrix ⟨rows, cols, #[]⟩).Held :=
    fun _ _ h => ⟨.matrix h.symm, .matrix (Nat.two_pow_pos 64)⟩
  refine ⟨rfl, ?_, ?_, rfl, ⟨.empty, 0, "", .ofSeed 1⟩, Generator.lawful_standard,
    call_far_apart Generator.lawful_standard⟩
  · exact List.forall_mem_cons.mpr ⟨hempty _ _ rfl, List.forall_mem_singleton.mpr (hempty _ _ rfl)⟩
  · exact Checked.call_product_eq_none rfl (by decide)

end Builtin

end MatrixLisp
