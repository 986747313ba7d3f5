import MatrixLisp.Proofs.Builtin.Results
import MatrixLisp.Proofs.Linear.Bounds

/-!
# Ranges of random numbers

The builtins for random matrices read a shape and two bounds from their arguments and refuse bounds in
the wrong order. A lawful generator draws integers if the lower bound is less than the upper one, and
floats if moreover the difference of the bounds is finite. Integer bounds that are admitted are always
drawn from. Float bounds are not: two finite bounds that are far apart have no finite difference, and a
call that draws from between them crashes. Every other call ends with a fault or with a matrix of the
shape.
-/
namespace MatrixLisp

/-! ## The order of finite floats -/

namespace FloatOrder

open Float.Model (UnpackedFloat)

theorem compare_swap (u v : UnpackedFloat) : v.compare u = (u.compare v).map Ordering.swap := by
  cases u with
  | notANumber => cases v <;> rfl
  | infinity s =>
    cases v with
    | infinity s' => cases s <;> cases s' <;> rfl
    | _ => cases s <;> rfl
  | zero s =>
    cases v with
    | infinity s' => cases s' <;> rfl
    | finite s' m e hm => cases s' <;> rfl
    | _ => rfl
  | finite s m e hm =>
    cases v with
    | notANumber => rfl
    | infinity s' => cases s' <;> rfl
    | zero s' => cases s <;> rfl
    | finite s' m' e' hm' =>
      have hswap : (compare e' e).then (compare m' m) =
          ((compare e e').then (compare m m')).swap := by
        rw [Ordering.swap_then, Int.compare_swap, Nat.compare_swap]
      cases s <;> cases s'
      · exact congrArg (fun o => some o.swap) hswap
      · rfl
      · rfl
      · exact congrArg some hswap

theorem exists_compare {u v : UnpackedFloat} (hu : u.isFinite = true) (hv : v.isFinite = true) :
    ∃ o, u.compare v = some o := by
  cases u with
  | notANumber => cases hu
  | infinity s => cases hu
  | zero s =>
    cases v with
    | notANumber => cases hv
    | infinity s' => cases hv
    | zero s' => exact ⟨_, rfl⟩
    | finite s' m' e' hm' => cases s' <;> exact ⟨_, rfl⟩
  | finite s m e hm =>
    cases v with
    | notANumber => cases hv
    | infinity s' => cases hv
    | zero s' => cases s <;> exact ⟨_, rfl⟩
    | finite s' m' e' hm' => cases s <;> cases s' <;> exact ⟨_, rfl⟩

theorem lt_iff (x y : Float) : x < y ↔ x.toModel.unpack.compare y.toModel.unpack = some .lt := by
  have h : x < y ↔ x.toModel < y.toModel := decide_eq_true_iff
  rw [h]
  exact beq_iff_eq

theorem beq_iff (x y : Float) :
    (x == y) = true ↔ x.toModel.unpack.compare y.toModel.unpack = some .eq := by
  show (x.toModel.unpack.compare y.toModel.unpack == some .eq) = true ↔ _
  exact beq_iff_eq

/-- Of two finite floats that are not equal, the one that is not less is greater. -/
theorem lt_of_not_lt {x y : Float} (hx : x.isFinite = true) (hy : y.isFinite = true) (h : ¬y < x)
    (hne : (y == x) = false) : x < y := by
  rw [lt_iff] at h ⊢
  rw [← Bool.not_eq_true, beq_iff] at hne
  obtain ⟨o, ho⟩ := exists_compare hy hx
  rw [compare_swap y.toModel.unpack, ho]
  rw [ho] at h hne
  cases o with
  | lt => exact absurd rfl h
  | eq => exact absurd rfl hne
  | gt => rfl

end FloatOrder

namespace Builtin

open Run

/-! ## Arguments -/

/-- The size that a value is. -/
def size? (v : Value) : Option ℕ :=
  v.int?.bind fun n => if 0 ≤ n.toInt then some n.toInt.toNat else none

/-- What an argument gives, or what stands for its absence. -/
def optional? {α : Type} (args : List Value) (i : ℕ) (absent : α) (read? : Value → Option α) :
    Option α :=
  match args[i]? with
  | some v => read? v
  | none => some absent

/-- The shape that the first two arguments give; a single side stands for a square. -/
def shape? (args : List Value) : Option (ℕ × ℕ) := do
  let rows ← args[0]? >>= size?
  let cols ← optional? args 1 rows size?
  return (rows, cols)

/-- A shape and the bounds of random numbers. -/
structure Request (α : Type) where
  shape : ℕ × ℕ
  least : α
  greatest : α

/-- What arguments ask for, if each of them is of the right type. -/
def request? {α : Type} (read? : Value → Option α) (absent : α × α) (args : List Value) :
    Option (Request α) := do
  let shape ← shape? args
  let least ← optional? args 2 absent.1 read?
  let greatest ← optional? args 3 absent.2 read?
  return ⟨shape, least, greatest⟩

/-- A run goes on with the value that there is, or raises a fault if there is none. -/
def GoesOn {α β : Type} (x : Run β) (o : Option α) (next : α → Run β) : Prop :=
  (∃ a, o = some a ∧ x = next a) ∨ o = none ∧ ∃ f, x = raise f

theorem goesOn_some {α β : Type} (next : α → Run β) (a : α) : GoesOn (next a) (some a) next :=
  .inl ⟨a, rfl, rfl⟩

theorem GoesOn.bind {α β γ : Type} {x : Run α} {o : Option α} (h : GoesOn x o pure)
    {f : α → Run γ} {g : α → Option β} {next : β → Run γ}
    (hf : ∀ a, o = some a → GoesOn (f a) (g a) next) : GoesOn (x >>= f) (o.bind g) next := by
  obtain ⟨a, rfl, rfl⟩ | ⟨rfl, e, rfl⟩ := h
  · exact hf a rfl
  · exact .inr ⟨rfl, e, rfl⟩

/-- A conversion gives what is read, and has a fault where nothing is. -/
def Reads {α : Type} (convert : Value → Except Fault α) (read? : Value → Option α) : Prop :=
  ∀ v, GoesOn (ofExcept (convert v)) (read? v) pure

theorem reads_intOf (b : Builtin) : Reads b.intOf Value.int? := by
  intro v
  unfold intOf
  cases v.int? with
  | some n => exact goesOn_some pure n
  | none => exact .inr ⟨rfl, _, rfl⟩

theorem reads_floatOf (b : Builtin) : Reads b.floatOf Value.float? := by
  intro v
  unfold floatOf
  cases v.float? with
  | some x => exact goesOn_some pure x
  | none => exact .inr ⟨rfl, _, rfl⟩

theorem reads_dimensionOf (b : Builtin) : Reads b.dimensionOf size? := by
  intro v
  unfold dimensionOf intOf size?
  cases v.int? with
  | some n =>
    by_cases h : 0 ≤ n.toInt
    · exact .inl ⟨n.toInt.toNat, if_pos h, congrArg ofExcept (if_pos h)⟩
    · exact .inr ⟨if_neg h, _, congrArg ofExcept (if_neg h)⟩
  | none => exact .inr ⟨rfl, _, rfl⟩

section

variable {α : Type} {convert : Value → Except Fault α} {read? : Value → Option α}

theorem optional_goesOn (h : Reads convert read?) (args : List Value) (i : ℕ) (absent : α) :
    GoesOn (optional args i absent convert) (optional? args i absent read?) pure := by
  unfold optional optional?
  cases args[i]? with
  | none => exact goesOn_some pure absent
  | some v => exact h v

theorem shapeOf_goesOn (b : Builtin) {args : List Value} (hargs : args ≠ []) :
    GoesOn (b.shapeOf args) (shape? args) pure := by
  obtain ⟨v, rest, rfl⟩ := List.exists_cons_of_ne_nil hargs
  have hread : b.shapeOf (v :: rest) = ofExcept (b.dimensionOf v) >>= fun rows =>
      optional (v :: rest) 1 rows b.dimensionOf >>= fun cols => pure (rows, cols) := by
    unfold shapeOf optional
    cases rest <;> rfl
  rw [hread]
  refine (b.reads_dimensionOf v).bind fun rows _ => ?_
  exact (optional_goesOn b.reads_dimensionOf _ 1 rows).bind fun cols _ => goesOn_some pure _

/-- The shape and the bounds are read from the arguments, or there is a fault. -/
theorem request_goesOn (b : Builtin) (h : Reads convert read?) (absent : α × α) {args : List Value}
    (hargs : args ≠ []) (next : Request α → Run Value) :
    GoesOn (do
      let shape ← b.shapeOf args
      let least ← optional args 2 absent.1 convert
      let greatest ← optional args 3 absent.2 convert
      next ⟨shape, least, greatest⟩) (request? read? absent args) next := by
  refine (shapeOf_goesOn b hargs).bind fun shape _ => ?_
  refine (optional_goesOn h args 2 _).bind fun least _ => ?_
  exact (optional_goesOn h args 3 _).bind fun greatest _ => goesOn_some next _

end

/-! ## Draws -/

/-- What is made of a request for integers. -/
def answerInts (r : Request Int64) : Run Value :=
  if r.greatest.toInt < r.least.toInt then
    raise (.reversedBounds randomInts (toString r.least.toInt) (toString r.greatest.toInt))
  else
    return .matrix (← randomMatrix r.shape (intBetween? r.least r.greatest))

/-- What is made of a request for floats. -/
def answerFloats (r : Request Float) : Run Value :=
  if !(r.least.isFinite && r.greatest.isFinite) then raise (.infiniteBounds randomFloats)
  else if r.greatest < r.least then
    raise (.reversedBounds randomFloats (FloatText.plain r.least) (FloatText.plain r.greatest))
  else
    return .matrix (← randomMatrix r.shape (floatBetween? r.least r.greatest))

/-- In every state of a generator there is an entry, and the generator stays the same. -/
def Supplies (g : Generator) (draw : Source → Option (Float × Source)) : Prop :=
  ∀ state, ∃ x next, draw ⟨g, state⟩ = some (x, ⟨g, next⟩)

section

variable {g : Generator} {draw : Source → Option (Float × Source)}

theorem supplies_intBetween? (hg : g.Lawful) {least greatest : Int64}
    (h : greatest ≠ least → least.toInt < greatest.toInt) :
    Supplies g (intBetween? least greatest) := by
  intro state
  unfold intBetween?
  split_ifs with heq
  · exact ⟨_, _, rfl⟩
  · obtain ⟨n, next, hn⟩ := Source.exists_int? hg state (h heq)
    exact ⟨_, next, congrArg (Option.map _) hn⟩

theorem supplies_floatBetween? (hg : g.Lawful) {least greatest : Float}
    (h : (greatest == least) = false → least < greatest ∧ (greatest - least).isFinite) :
    Supplies g (floatBetween? least greatest) := by
  intro state
  unfold floatBetween?
  cases heq : greatest == least with
  | true => exact ⟨_, _, rfl⟩
  | false => exact Source.exists_float? hg state (h heq)

theorem floatBetween?_eq_none {source : Source} (hg : source.generator.Lawful) {least greatest : Float}
    (hne : (greatest == least) = false) (hinfinite : (greatest - least).isFinite = false) :
    floatBetween? least greatest source = none := by
  rw [floatBetween?, hne, if_neg nofun]
  refine Source.float?_eq_none hg source.state fun h => ?_
  rw [hinfinite] at h
  exact Bool.false_ne_true h.2

theorem exists_drawMany (h : Supplies g draw) (n : ℕ) (drawn : Array Float) (state : StdGen) :
    ∃ result, drawMany draw n drawn ⟨g, state⟩ = some result := by
  induction n generalizing drawn state with
  | zero => exact ⟨_, rfl⟩
  | succ n ih =>
    obtain ⟨x, next, hx⟩ := h state
    rw [drawMany, hx]
    exact ih ..

theorem drawMany_eq_none {source : Source} (h : draw source = none) {n : ℕ} (hn : n ≠ 0)
    (drawn : Array Float) : drawMany draw n drawn source = none := by
  obtain ⟨n, rfl⟩ := Nat.exists_eq_succ_of_ne_zero hn
  rw [drawMany, h]

variable {shape : ℕ × ℕ}

theorem randomMatrix_apply (h : Matrix.checkShape shape.1 shape.2 = .ok ()) (m : Machine) :
    randomMatrix shape draw m =
      match drawMany draw (shape.1 * shape.2) #[] m.random with
      | some (data, source) => (.ok ⟨shape.1, shape.2, data⟩, { m with random := source })
      | none => (.error (.crash .refusedBounds), m) := by
  rw [randomMatrix, h]
  rfl

/-- A matrix without entries needs no draw. -/
theorem exists_randomMatrix (h : Matrix.checkShape shape.1 shape.2 = .ok ()) {m : Machine}
    (hdraw : shape.1 * shape.2 = 0 ∨ Supplies m.random.generator draw) :
    ∃ a m', randomMatrix shape draw m = (.ok a, m') ∧ a.WellFormed ∧ a.shape = shape := by
  have hmany : ∃ result, drawMany draw (shape.1 * shape.2) #[] m.random = some result := by
    obtain hzero | hdraw := hdraw
    · exact ⟨_, by rw [hzero, drawMany]⟩
    · exact exists_drawMany hdraw ..
  obtain ⟨⟨data, source⟩, hdata⟩ := hmany
  have hwf : Matrix.WellFormed ⟨shape.1, shape.2, data⟩ := by
    simpa [Matrix.WellFormed] using size_drawMany hdata
  exact ⟨_, _, by rw [randomMatrix_apply h, hdata], hwf, rfl⟩

theorem randomMatrix_eq_crash (h : Matrix.checkShape shape.1 shape.2 = .ok ()) {m : Machine}
    (hdraw : draw m.random = none) (hne : shape.1 * shape.2 ≠ 0) :
    randomMatrix shape draw m = (.error (.crash .refusedBounds), m) := by
  rw [randomMatrix_apply h, drawMany_eq_none hdraw hne]

theorem exists_randomMatrix_eq_fault (draw : Source → Option (Float × Source))
    (h : Matrix.checkShape shape.1 shape.2 ≠ .ok ()) (m : Machine) :
    ∃ f, randomMatrix shape draw m = (.error (.fault f), m) := by
  unfold randomMatrix
  cases hshape : Matrix.checkShape shape.1 shape.2 with
  | ok => exact absurd hshape h
  | error f => exact ⟨f, rfl⟩

end

/-! ## Requests -/

/-- Arguments that pass every check before the first draw. -/
structure Admitted {α : Type} (b : Builtin) (read? : Value → Option α) (absent : α × α)
    (Valid : α → α → Prop) (args : List Value) (r : Request α) : Prop where
  accepts : b.arity.accepts args.length = true
  request_eq : request? read? absent args = some r
  valid : Valid r.least r.greatest
  allowed : Matrix.checkShape r.shape.1 r.shape.2 = .ok ()

/-- Integer bounds in the right order. -/
def ValidInts (least greatest : Int64) : Prop := least.toInt ≤ greatest.toInt

instance (least greatest : Int64) : Decidable (ValidInts least greatest) :=
  inferInstanceAs (Decidable (_ ≤ _))

/-- Finite float bounds in the right order. -/
def ValidFloats (least greatest : Float) : Prop :=
  least.isFinite = true ∧ greatest.isFinite = true ∧ ¬greatest < least

instance (least greatest : Float) : Decidable (ValidFloats least greatest) :=
  inferInstanceAs (Decidable (_ ∧ _ ∧ ¬_))

/-- Arguments that pass the checks of the builtin for random integers. -/
abbrev AdmittedInts : List Value → Request Int64 → Prop :=
  Admitted randomInts Value.int? (0, defaultGreatest) ValidInts

/-- Arguments that pass the checks of the builtin for random floats. -/
abbrev AdmittedFloats : List Value → Request Float → Prop :=
  Admitted randomFloats Value.float? (0.0, 1.0) ValidFloats

/-- Integer bounds that are not equal have numbers between them. -/
theorem ValidInts.lt_of_ne {least greatest : Int64} (h : ValidInts least greatest)
    (hne : greatest ≠ least) : least.toInt < greatest.toInt :=
  lt_of_le_of_ne h fun heq => hne (Int64.toInt_inj.mp heq.symm)

/-- Float bounds that are not equal are in the right order. -/
theorem ValidFloats.lt_of_ne {least greatest : Float} (h : ValidFloats least greatest)
    (hne : (greatest == least) = false) : least < greatest :=
  FloatOrder.lt_of_not_lt h.1 h.2.1 h.2.2 hne

/-- A float has to be drawn from between bounds whose difference is too great. -/
def Request.TooWide (r : Request Float) : Prop :=
  r.shape.1 * r.shape.2 ≠ 0 ∧ (r.greatest == r.least) = false ∧
    (r.greatest - r.least).isFinite = false

instance (r : Request Float) : Decidable r.TooWide := inferInstanceAs (Decidable (_ ∧ _ ∧ _))

/-- A run ends with a well-formed matrix of a shape. -/
def MakesMatrix (shape : ℕ × ℕ) (result : Except Halt Value) : Prop :=
  ∃ a, result = .ok (.matrix a) ∧ a.WellFormed ∧ a.shape = shape

theorem makesMatrix_randomMatrix {shape : ℕ × ℕ} {draw : Source → Option (Float × Source)}
    (h : Matrix.checkShape shape.1 shape.2 = .ok ()) {m : Machine}
    (hdraw : shape.1 * shape.2 = 0 ∨ Supplies m.random.generator draw) :
    MakesMatrix shape
      ((randomMatrix shape draw >>= fun a => (pure (.matrix a) : Run Value)) m).1 := by
  obtain ⟨a, m', ha, hwf, hshape⟩ := exists_randomMatrix h hdraw
  rw [bind_apply_of_ok _ ha]
  exact ⟨a, rfl, hwf, hshape⟩

theorem answerFloats_of_valid {r : Request Float} (hr : ValidFloats r.least r.greatest) :
    answerFloats r = randomMatrix r.shape (floatBetween? r.least r.greatest) >>=
      fun a => pure (.matrix a) := by
  obtain ⟨hleast, hgreatest, hlt⟩ := hr
  rw [answerFloats, hleast, hgreatest, if_neg (by decide), if_neg hlt]

section

variable {m : Machine} (hg : m.random.generator.Lawful)
include hg

theorem makesMatrix_ints {r : Request Int64} (hr : ValidInts r.least r.greatest)
    (h : Matrix.checkShape r.shape.1 r.shape.2 = .ok ()) :
    MakesMatrix r.shape (answerInts r m).1 := by
  rw [answerInts, if_neg (not_lt.mpr hr)]
  exact makesMatrix_randomMatrix h (.inr (supplies_intBetween? hg hr.lt_of_ne))

theorem makesMatrix_floats {r : Request Float} (hr : ValidFloats r.least r.greatest)
    (h : Matrix.checkShape r.shape.1 r.shape.2 = .ok ()) (hwidth : ¬r.TooWide) :
    MakesMatrix r.shape (answerFloats r m).1 := by
  rw [answerFloats_of_valid hr]
  refine makesMatrix_randomMatrix h (or_iff_not_imp_left.mpr fun hne => ?_)
  refine supplies_floatBetween? hg fun heq => ⟨hr.lt_of_ne heq, ?_⟩
  by_contra hinfinite
  exact hwidth ⟨hne, heq, Bool.eq_false_iff.mpr hinfinite⟩

theorem crash_of_tooWide {r : Request Float} (hr : ValidFloats r.least r.greatest)
    (h : Matrix.checkShape r.shape.1 r.shape.2 = .ok ()) (hwide : r.TooWide) :
    answerFloats r m = (.error (.crash .refusedBounds), m) := by
  obtain ⟨hne, heq, hinfinite⟩ := hwide
  rw [answerFloats_of_valid hr]
  exact bind_apply_of_error _ (randomMatrix_eq_crash h (floatBetween?_eq_none hg heq hinfinite) hne)

end

theorem fault_of_not_allowed {shape : ℕ × ℕ} (h : Matrix.checkShape shape.1 shape.2 ≠ .ok ())
    (draw : Source → Option (Float × Source)) (m : Machine) :
    ∃ f, (randomMatrix shape draw >>= fun a => (pure (.matrix a) : Run Value)) m =
      (.error (.fault f), m) := by
  obtain ⟨f, hf⟩ := exists_randomMatrix_eq_fault draw h m
  exact ⟨f, bind_apply_of_error _ hf⟩

/-- A builtin reads a request and makes an answer of it, which refuses bounds that are not valid and
shapes that are not allowed. -/
structure Answers {α : Type} (b : Builtin) (read? : Value → Option α) (absent : α × α)
    (Valid : α → α → Prop) (answer : Request α → Run Value) : Prop where
  goesOn : ∀ args, b.arity.accepts args.length = true →
    GoesOn (b.body args) (request? read? absent args) answer
  refuses : ∀ r, ¬Valid r.least r.greatest → ∃ f, answer r = raise f
  too_large : ∀ r m, Valid r.least r.greatest → Matrix.checkShape r.shape.1 r.shape.2 ≠ .ok () →
    ∃ f, answer r m = (.error (.fault f), m)

section

variable {α : Type} {b : Builtin} {read? : Value → Option α} {absent : α × α}
  {Valid : α → α → Prop} {answer : Request α → Run Value} {args : List Value}

/-- A call with arguments that are admitted goes on to the draws. -/
theorem Answers.call_eq (hb : Answers b read? absent Valid answer) {r : Request α}
    (h : Admitted b read? absent Valid args r) : call b args = answer r := by
  rw [call_of_accepts b args h.accepts]
  obtain ⟨_, hr, hnext⟩ | ⟨hnone, -⟩ := hb.goesOn args h.accepts
  · cases hr.symm.trans h.request_eq
    exact hnext
  · cases hnone.symm.trans h.request_eq

/-- A call with arguments that are not admitted ends with a fault. -/
theorem Answers.exists_fault (hb : Answers b read? absent Valid answer)
    (h : ¬∃ r, Admitted b read? absent Valid args r) (m : Machine) :
    ∃ f, call b args m = (.error (.fault f), m) := by
  cases haccepts : b.arity.accepts args.length with
  | false => exact ⟨_, congrFun (call_of_not_accepts b args haccepts) m⟩
  | true =>
    rw [call_of_accepts b args haccepts]
    obtain ⟨r, hr, hnext⟩ | ⟨-, f, hf⟩ := hb.goesOn args haccepts
    · rw [hnext]
      by_cases hv : Valid r.least r.greatest
      · exact hb.too_large r m hv fun hshape => h ⟨r, haccepts, hr, hv, hshape⟩
      · obtain ⟨f, hf⟩ := hb.refuses r hv
        exact ⟨f, congrFun hf m⟩
    · exact ⟨f, congrFun hf m⟩

end

theorem answers_ints : Answers randomInts Value.int? (0, defaultGreatest) ValidInts answerInts where
  goesOn args haccepts :=
    have hne : args ≠ [] := fun hnil => by rw [hnil] at haccepts; cases haccepts
    request_goesOn randomInts (reads_intOf _) (0, defaultGreatest) hne answerInts
  refuses r hr := ⟨_, if_pos (not_le.mp hr)⟩
  too_large r m hr hshape := by
    rw [answerInts, if_neg (not_lt.mpr hr)]
    exact fault_of_not_allowed hshape _ m

theorem answers_floats :
    Answers randomFloats Value.float? (0.0, 1.0) ValidFloats answerFloats where
  goesOn args haccepts :=
    have hne : args ≠ [] := fun hnil => by rw [hnil] at haccepts; cases haccepts
    request_goesOn randomFloats (reads_floatOf _) (0.0, 1.0) hne answerFloats
  refuses r hr := by
    unfold answerFloats
    by_cases hfinite : (r.least.isFinite && r.greatest.isFinite) = true
    · obtain ⟨hleast, hgreatest⟩ := Bool.and_eq_true_iff.mp hfinite
      have hlt : r.greatest < r.least := not_not.mp fun hlt => hr ⟨hleast, hgreatest, hlt⟩
      rw [hfinite, if_neg (by decide)]
      exact ⟨_, if_pos hlt⟩
    · exact ⟨_, if_pos (by simp [hfinite])⟩
  too_large r m hr hshape := by
    rw [answerFloats_of_valid hr]
    exact fault_of_not_allowed hshape _ m

/-- If the generator is lawful, it accepts the bounds of integers that are admitted, so that every call of
the builtin for them ends with a fault or, if its arguments are admitted, with a matrix of the shape that
they ask for. So does a call of the builtin for floats, unless the difference of its bounds is no finite
float although both are: it draws from between bounds that the generator refuses, and crashes. -/
theorem call_random (args : List Value) (m : Machine) (hg : m.random.generator.Lawful) :
    (∀ r, AdmittedInts args r →
      (r.greatest ≠ r.least → r.least.toInt < r.greatest.toInt) ∧
      MakesMatrix r.shape (call randomInts args m).1) ∧
    ((¬∃ r, AdmittedInts args r) → ∃ f, call randomInts args m = (.error (.fault f), m)) ∧
    (∀ r, AdmittedFloats args r →
      ((r.greatest == r.least) = false → r.least < r.greatest) ∧
      (¬r.TooWide → MakesMatrix r.shape (call randomFloats args m).1) ∧
      (r.TooWide → call randomFloats args m = (.error (.crash .refusedBounds), m))) ∧
    ((¬∃ r, AdmittedFloats args r) → ∃ f, call randomFloats args m = (.error (.fault f), m)) := by
  refine ⟨fun r h => ⟨h.valid.lt_of_ne, ?_⟩, fun h => answers_ints.exists_fault h m,
    fun r h => ⟨h.valid.lt_of_ne, fun hwidth => ?_, fun hwide => ?_⟩,
    fun h => answers_floats.exists_fault h m⟩
  · rw [answers_ints.call_eq h]
    exact makesMatrix_ints hg h.valid h.allowed
  · rw [answers_floats.call_eq h]
    exact makesMatrix_floats hg h.valid h.allowed hwidth
  · rw [answers_floats.call_eq h]
    exact crash_of_tooWide hg h.valid h.allowed hwide

/-- The least and the greatest integer are bounds like others, and so are bounds by default. -/
theorem call_random_extremes :
    AdmittedInts [.int 2, .int 3, .int Int64.minValue, .int Int64.maxValue]
      ⟨(2, 3), Int64.minValue, Int64.maxValue⟩ ∧
    AdmittedFloats [.int 2] ⟨(2, 2), 0.0, 1.0⟩ ∧
    ∃ m : Machine, m.random.generator.Lawful ∧
      MakesMatrix (2, 3)
        (call randomInts [.int 2, .int 3, .int Int64.minValue, .int Int64.maxValue] m).1 ∧
      MakesMatrix (2, 2) (call randomFloats [.int 2] m).1 ∧
      ∃ f, call randomInts [.int 2, .int 3, .int 5, .int 1] m = (.error (.fault f), m) := by
  have hints : AdmittedInts [.int 2, .int 3, .int Int64.minValue, .int Int64.maxValue]
      ⟨(2, 3), Int64.minValue, Int64.maxValue⟩ :=
    ⟨rfl, rfl, by decide, Matrix.checkShape_eq_ok_iff.mpr (by decide)⟩
  have hfloats : AdmittedFloats [.int 2] ⟨(2, 2), 0.0, 1.0⟩ :=
    ⟨rfl, rfl, by decide, Matrix.checkShape_eq_ok_iff.mpr (by decide)⟩
  have hreversed : ¬∃ r, AdmittedInts [.int 2, .int 3, .int 5, .int 1] r := by
    rintro ⟨r, -, hr, hvalid, -⟩
    cases hr
    exact absurd hvalid (by decide)
  have hg : Generator.Lawful .standard := Generator.lawful_standard
  refine ⟨hints, hfloats, ⟨.empty, 0, "", .ofSeed 1⟩, hg, ?_, ?_, ?_⟩
  · exact ((call_random _ _ hg).1 _ hints).2
  · exact ((call_random _ _ hg).2.2.1 _ hfloats).2.1 (by decide)
  · exact (call_random _ _ hg).2.1 hreversed

theorem admitted_far_apart :
    AdmittedFloats [.int 1, .int 1, .float (-1e308), .float 1e308] ⟨(1, 1), -1e308, 1e308⟩ :=
  ⟨rfl, rfl, by decide +kernel, Matrix.checkShape_eq_ok_iff.mpr (by decide)⟩

theorem call_far_apart {m : Machine} (hg : m.random.generator.Lawful) :
    call randomFloats [.int 1, .int 1, .float (-1e308), .float 1e308] m =
      (.error (.crash .refusedBounds), m) := by
  rw [answers_floats.call_eq admitted_far_apart]
  exact crash_of_tooWide hg admitted_far_apart.valid admitted_far_apart.allowed (by decide +kernel)

/-- Two finite bounds in the right order are admitted and crash the call. -/
theorem randomFloats_crash :
    AdmittedFloats [.int 1, .int 1, .float (-1e308), .float 1e308] ⟨(1, 1), -1e308, 1e308⟩ ∧
    ∃ m, m.random.generator.Lawful ∧
      call randomFloats [.int 1, .int 1, .float (-1e308), .float 1e308] m =
        (.error (.crash .refusedBounds), m) :=
  ⟨admitted_far_apart, ⟨.empty, 0, "", .ofSeed 1⟩, Generator.lawful_standard,
    call_far_apart Generator.lawful_standard⟩

end Builtin

end MatrixLisp
