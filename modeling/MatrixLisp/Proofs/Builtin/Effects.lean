import Mathlib.Tactic
import MatrixLisp.Proofs.Builtin.Results
import MatrixLisp.Proofs.Eval.Coupling

/-!
# What the builtins do to the machine

A builtin prints and draws random numbers and touches nothing else. What it prints, draws and gives
depends on its arguments, not on the names of frames and closures in them, and on the source of
random numbers, which only two builtins use. So the builtins respect every coupling of machines with
the same source that respects printing and drawing.
-/
namespace MatrixLisp

/-- The machine after a text is printed, with another source of random numbers. -/
def Machine.emit (m : Machine) (text : String) (source : Source) : Machine :=
  { m with output := m.output ++ text, random := source }

theorem Machine.emit_emit (m : Machine) (text more : String) (source last : Source) :
    (m.emit text source).emit more last = m.emit (text ++ more) last := by
  simp [emit, String.append_assoc]

theorem Machine.emit_empty (m : Machine) : m.emit "" m.random = m := by
  simp [emit]

namespace Run

variable {α β γ δ : Type} {draws : Prop} {f : α → β} {g : γ → δ} {P : α → Prop} {Q : γ → Prop}

/-- On machines with the same source of random numbers, two runs print the same and leave the same
source, which is another one only if they may draw. They touch nothing else, and the second gives
what the first gives but for a map of the results. -/
def Emits (draws : Prop) (f : α → β) (P : α → Prop) (x : Run α) (y : Run β) : Prop :=
  ∀ m m' : Machine, m'.random = m.random → ∃ text source,
    (source = m.random ∨ draws) ∧ (x m).2 = m.emit text source ∧ (y m').2 = m'.emit text source ∧
      (y m').1 = (x m).1.map f ∧ Outcome P (fun _ => True) (x m).1

theorem Emits.bind {x : Run α} {y : Run β} (h : Emits draws f P x y) {k : α → Run γ}
    {k' : β → Run δ} (hk : ∀ a, P a → Emits draws g Q (k a) (k' (f a))) :
    Emits draws g Q (x >>= k) (y >>= k') := by
  intro m m' hrandom
  obtain ⟨text, source, hsource, hx, hy, hsame, hP⟩ := h m m' hrandom
  cases hresult : (x m).1 with
  | error e =>
    rw [hresult] at hsame
    rw [bind_apply_of_error k (Prod.ext hresult hx), bind_apply_of_error k' (Prod.ext hsame hy)]
    exact ⟨text, source, hsource, rfl, rfl, rfl, trivial⟩
  | ok a =>
    rw [hresult] at hsame hP
    rw [bind_apply_of_ok k (Prod.ext hresult hx), bind_apply_of_ok k' (Prod.ext hsame hy)]
    obtain ⟨more, last, hlast, hx, hy, hrest⟩ :=
      hk a hP (m.emit text source) (m'.emit text source) rfl
    refine ⟨text ++ more, last, ?_, ?_, ?_, hrest⟩
    · rcases hlast with hlast | hdraws
      · exact hsource.imp_left hlast.trans
      · exact .inr hdraws
    · exact hx.trans (m.emit_emit ..)
    · exact hy.trans (m'.emit_emit ..)

theorem emits_pure {a : α} (h : P a) : Emits draws f P (pure a) (pure (f a)) := by
  intro m m' hrandom
  refine ⟨"", m.random, .inl rfl, (m.emit_empty).symm, ?_, rfl, h⟩
  rw [← hrandom]
  exact (m'.emit_empty).symm

theorem emits_halt (h : Halt) : Emits draws f P (halt h) (halt h) := by
  intro m m' hrandom
  refine ⟨"", m.random, .inl rfl, (m.emit_empty).symm, ?_, rfl, trivial⟩
  rw [← hrandom]
  exact (m'.emit_empty).symm

theorem emits_raise (fault : Fault) : Emits draws f P (raise fault) (raise fault) := emits_halt _

theorem emits_ofExcept {r : Except Fault α} (h : Outcome P (fun _ => True) r) :
    Emits draws f P (ofExcept r) (ofExcept (r.map f)) := by
  cases r with
  | ok a => exact emits_pure h
  | error fault => exact emits_raise fault

theorem emits_ofExcept_id (r : Except Fault α) :
    Emits draws id (fun _ => True) (ofExcept r) (ofExcept r) := by
  cases r with
  | ok a => exact emits_pure trivial
  | error fault => exact emits_raise fault

theorem emits_print (text : String) : Emits draws id (fun _ => True) (print text) (print text) := by
  intro m m' hrandom
  refine ⟨text, m.random, .inl rfl, rfl, ?_, rfl, trivial⟩
  rw [← hrandom]
  rfl

end Run

namespace Builtin

open Run Value

variable {ρ : Renaming} {draws : Prop}

section

variable (b : Builtin)

@[simp] theorem unexpected_rename (expected : String) (v : Value) :
    b.unexpected expected (v.rename ρ) = b.unexpected expected v := by
  simp [unexpected]

@[simp] theorem floatOf_rename (v : Value) : b.floatOf (v.rename ρ) = b.floatOf v := by
  simp [floatOf]

@[simp] theorem intOf_rename (v : Value) : b.intOf (v.rename ρ) = b.intOf v := by
  simp [intOf]

@[simp] theorem dimensionOf_rename (v : Value) : b.dimensionOf (v.rename ρ) = b.dimensionOf v := by
  simp [dimensionOf]

@[simp] theorem lengthOf_rename (v : Value) : b.lengthOf (v.rename ρ) = b.lengthOf v := by
  cases v with
  | list items => simp [lengthOf]
  | vector items => simp [lengthOf]
  | map entries => simp [lengthOf, Dict.rename]
  | closure => simp [lengthOf, unexpected, typeName]
  | _ => rfl

theorem itemsOf_rename (v : Value) :
    b.itemsOf (v.rename ρ) = (b.itemsOf v).map (List.map (rename ρ)) := by
  simp only [itemsOf, items?_rename, unexpected_rename]
  cases v.items? <;> rfl

theorem mapM_floatOf_rename (items : List Value) :
    (items.map (rename ρ)).mapM b.floatOf = items.mapM b.floatOf := by
  rw [List.mapM_map]
  congr 1
  funext v
  exact b.floatOf_rename v

end

theorem segments_rename (items : List Value) :
    segments isRowSeparator (items.map (rename ρ)) =
      (segments isRowSeparator items).map (List.map (rename ρ)) := by
  unfold segments
  induction items with
  | nil => rfl
  | cons v rest ih =>
    have hsep : isRowSeparator (v.rename ρ) = isRowSeparator v := by simp [isRowSeparator]
    rw [List.map_cons, List.splitOnP_cons_eq_if_modifyHead, List.splitOnP_cons_eq_if_modifyHead,
      hsep, ih]
    split_ifs
    · rfl
    · cases rest.splitOnP isRowSeparator <;> rfl

@[simp] theorem matrixOf_rename (items : List Value) :
    matrixOf (items.map (rename ρ)) = matrixOf items := by
  unfold matrixOf
  rw [segments_rename, List.mapM_map, List.isEmpty_map]
  congr 3
  funext row
  exact mapM_floatOf_rename matrix row

/-- A function of two values that refuses those which hold others sees no names. -/
theorem eq_of_refuses {F : Value → Value → Except Fault Value} (name : String)
    (h : ∀ a b, ¬(a.IsAtom ∧ b.IsAtom) → F a b = .error (operandFault name a b)) (a b : Value) :
    F (a.rename ρ) (b.rename ρ) = F a b := by
  by_cases hatoms : a.IsAtom ∧ b.IsAtom
  · rw [rename_of_isAtom hatoms.1, rename_of_isAtom hatoms.2]
  · have hnot : ¬((a.rename ρ).IsAtom ∧ (b.rename ρ).IsAtom) := by simpa using hatoms
    rw [h a b hatoms, h _ _ hnot, operandFault, operandFault, typeName_rename, typeName_rename]

@[simp] theorem relate_rename (r : Relation) (a b : Value) :
    relate r (a.rename ρ) (b.rename ρ) = relate r a b := by
  refine eq_of_refuses r.symbol (fun a b h => ?_) a b
  unfold relate
  split
  · exact absurd ⟨trivial, trivial⟩ h
  · rfl

@[simp] theorem calculate_rename (op : Arith) (a b : Value) :
    calculate op (a.rename ρ) (b.rename ρ) = calculate op a b := by
  refine eq_of_refuses op.symbol (fun a b h => ?_) a b
  unfold calculate
  split
  all_goals first | rfl | exact absurd ⟨trivial, trivial⟩ h

@[simp] theorem multiply_rename (a b : Value) :
    multiply (a.rename ρ) (b.rename ρ) = multiply a b := by
  refine eq_of_refuses product.name (fun a b h => ?_) a b
  unfold multiply
  split
  all_goals first | rfl | exact absurd ⟨trivial, trivial⟩ h

@[simp] theorem binary_rename (op : Operator) (a b : Value) :
    (a.rename ρ).binary op (b.rename ρ) = a.binary op b := by
  cases op <;> simp [binary]

theorem isAtom_binary (op : Operator) (a b : Value) :
    Outcome IsAtom (fun _ => True) (a.binary op b) := by
  cases op with
  | equal => trivial
  | notEqual => trivial
  | relation r =>
    show Outcome IsAtom (fun _ => True) (relate r a b)
    unfold relate
    split <;> trivial
  | arith op =>
    show Outcome IsAtom (fun _ => True) (calculate op a b)
    unfold calculate
    split
    all_goals first | trivial | exact (Outcome.intro _).map fun _ _ => trivial

theorem isAtom_multiply (a b : Value) : Outcome IsAtom (fun _ => True) (multiply a b) := by
  unfold multiply
  split
  all_goals first | trivial | exact (Outcome.intro _).map fun _ _ => trivial

theorem isAtom_countValue (n : ℕ) : Outcome IsAtom (fun _ => True) (countValue n) := by
  unfold countValue
  split <;> trivial

/-- What a builtin gives holds no other values, or it is the list of the arguments. -/
def Made (args : List Value) (v : Value) : Prop := v.IsAtom ∨ v = .list args

variable (args : List Value)

variable {args} in
/-- A value that holds no others is the same under all names. -/
theorem emits_atom {v : Value} (h : v.IsAtom) :
    Emits draws (rename ρ) (Made args) (pure v) (pure v) := by
  have hpure : Emits draws (rename ρ) (Made args) (pure v) (pure (v.rename ρ)) :=
    emits_pure (.inl h)
  rwa [rename_of_isAtom h] at hpure

variable {args} in
theorem emits_ofExcept_atom {r : Except Fault Value} (h : Outcome IsAtom (fun _ => True) r) :
    Emits draws (rename ρ) (Made args) (ofExcept r) (ofExcept r) := by
  cases r with
  | ok v => exact emits_atom h
  | error fault => exact emits_raise fault

theorem argument_emits (i : ℕ) :
    Emits draws (rename ρ) (fun _ => True) (argument args i)
      (argument (args.map (rename ρ)) i) := by
  rw [argument, argument, List.getElem?_map]
  cases args[i]? with
  | some v => exact emits_pure trivial
  | none => exact emits_halt _

theorem shapeOf_emits (b : Builtin) :
    Emits draws id (fun _ => True) (b.shapeOf args) (b.shapeOf (args.map (rename ρ))) := by
  apply (argument_emits args 0).bind
  intro v _
  rw [dimensionOf_rename]
  apply (emits_ofExcept_id _).bind
  intro rows _
  rw [List.getElem?_map]
  cases args[1]? with
  | some w =>
    simp only [Option.map_some, dimensionOf_rename]
    exact (emits_ofExcept_id _).bind fun _ _ => emits_pure trivial
  | none => exact emits_pure trivial

theorem optional_emits {α : Type} (i : ℕ) (absent : α) {convert : Value → Except Fault α}
    (h : ∀ v, convert (v.rename ρ) = convert v) :
    Emits draws id (fun _ => True) (optional args i absent convert)
      (optional (args.map (rename ρ)) i absent convert) := by
  rw [optional, optional, List.getElem?_map]
  cases args[i]? with
  | some v =>
    simp only [Option.map_some, h]
    exact emits_ofExcept_id _
  | none => exact emits_pure trivial

theorem randomMatrix_emits (hdraws : draws) (shape : ℕ × ℕ)
    (draw : Source → Option (Float × Source)) :
    Emits draws id (fun _ => True) (randomMatrix shape draw) (randomMatrix shape draw) := by
  apply (emits_ofExcept_id _).bind
  intro _ _ m m' hrandom
  dsimp only [id]
  rw [hrandom]
  cases drawMany draw (shape.1 * shape.2) #[] m.random with
  | some drawn =>
    refine ⟨"", drawn.2, .inr hdraws, ?_, ?_, rfl, trivial⟩
    · simp [Machine.emit]
    · simp [Machine.emit]
  | none => exact emits_halt (.crash .refusedBounds) m m' hrandom

theorem callRandomInts_emits (hdraws : draws) :
    Emits draws (rename ρ) (Made args) (callRandomInts args)
      (callRandomInts (args.map (rename ρ))) := by
  apply (shapeOf_emits args randomInts).bind
  intro shape _
  apply (optional_emits args 2 _ randomInts.intOf_rename).bind
  intro least _
  apply (optional_emits args 3 _ randomInts.intOf_rename).bind
  intro greatest _
  dsimp only [id]
  split
  · exact emits_raise _
  · exact (randomMatrix_emits hdraws _ _).bind fun _ _ => emits_atom trivial

theorem callRandomFloats_emits (hdraws : draws) :
    Emits draws (rename ρ) (Made args) (callRandomFloats args)
      (callRandomFloats (args.map (rename ρ))) := by
  apply (shapeOf_emits args randomFloats).bind
  intro shape _
  apply (optional_emits args 2 _ randomFloats.floatOf_rename).bind
  intro least _
  apply (optional_emits args 3 _ randomFloats.floatOf_rename).bind
  intro greatest _
  dsimp only [id]
  split
  · exact emits_raise _
  · split
    · exact emits_raise _
    · exact (randomMatrix_emits hdraws _ _).bind fun _ _ => emits_atom trivial

theorem callOperator_emits (op : Operator) :
    Emits draws (rename ρ) (Made args) (callOperator op args)
      (callOperator op (args.map (rename ρ))) := by
  apply (argument_emits args 0).bind
  intro v _
  apply (argument_emits args 1).bind
  intro w _
  rw [binary_rename]
  exact emits_ofExcept_atom (isAtom_binary op v w)

/-- The builtins that draw random numbers. -/
def Draws (b : Builtin) : Prop := b = randomInts ∨ b = randomFloats

instance : DecidablePred Draws := fun b =>
  inferInstanceAs (Decidable (b = randomInts ∨ b = randomFloats))

theorem body_emits (b : Builtin) :
    Emits b.Draws (rename ρ) (Made args) (b.body args) (b.body (args.map (rename ρ))) := by
  cases b with
  | add => exact callOperator_emits args _
  | sub => exact callOperator_emits args _
  | mul => exact callOperator_emits args _
  | div => exact callOperator_emits args _
  | equal => exact callOperator_emits args _
  | notEqual => exact callOperator_emits args _
  | less => exact callOperator_emits args _
  | lessEqual => exact callOperator_emits args _
  | greater => exact callOperator_emits args _
  | greaterEqual => exact callOperator_emits args _
  | product =>
    apply (argument_emits args 0).bind
    intro v _
    apply (argument_emits args 1).bind
    intro w _
    rw [multiply_rename]
    exact emits_ofExcept_atom (isAtom_multiply v w)
  | not =>
    apply (argument_emits args 0).bind
    intro v _
    rw [isTruthy_rename]
    exact emits_atom trivial
  | print =>
    have htext : (args.map (rename ρ)).map render = args.map render := by
      simp [Function.comp_def]
    simp only [body, List.isEmpty_map, htext]
    split
    · exact (emits_print _).bind fun _ _ => emits_atom trivial
    · exact emits_atom trivial
  | numVector =>
    apply (argument_emits args 0).bind
    intro v _
    rw [itemsOf_rename]
    apply (emits_ofExcept (Outcome.intro _)).bind
    intro items _
    rw [mapM_floatOf_rename]
    exact (emits_ofExcept_id _).bind fun data _ => emits_atom trivial
  | matrix =>
    apply (argument_emits args 0).bind
    intro v _
    rw [itemsOf_rename]
    apply (emits_ofExcept (Outcome.intro _)).bind
    intro items _
    rw [matrixOf_rename]
    exact (emits_ofExcept_id _).bind fun m _ => emits_atom trivial
  | identity =>
    apply (argument_emits args 0).bind
    intro v _
    rw [dimensionOf_rename]
    apply (emits_ofExcept_id _).bind
    intro n _
    exact (emits_ofExcept_id _).bind fun m _ => emits_atom trivial
  | zeros =>
    apply (shapeOf_emits args _).bind
    intro shape _
    exact (emits_ofExcept_id _).bind fun m _ => emits_atom trivial
  | randomInts => exact callRandomInts_emits args (.inl rfl)
  | randomFloats => exact callRandomFloats_emits args (.inr rfl)
  | transpose =>
    have hother : ∀ v : Value, Emits transpose.Draws (rename ρ) (Made args)
        (raise (transpose.unexpected "a matrix" v))
        (raise (transpose.unexpected "a matrix" (v.rename ρ))) := by
      intro v
      rw [unexpected_rename]
      exact emits_raise _
    apply (argument_emits args 0).bind
    intro v _
    cases v with
    | matrix m => exact emits_atom trivial
    | _ => exact hother _
  | list =>
    have hlist : Emits list.Draws (rename ρ) (Made args) (pure (.list args))
        (pure ((Value.list args).rename ρ)) := emits_pure (.inr rfl)
    rwa [rename_list] at hlist
  | isList =>
    apply (argument_emits args 0).bind
    intro v _
    cases v <;> exact emits_atom trivial
  | isEmpty =>
    apply (argument_emits args 0).bind
    intro v _
    rw [lengthOf_rename]
    exact (emits_ofExcept_id _).bind fun n _ => emits_atom trivial
  | count =>
    apply (argument_emits args 0).bind
    intro v _
    rw [lengthOf_rename]
    apply (emits_ofExcept_id _).bind
    intro n _
    exact emits_ofExcept_atom (isAtom_countValue n)
  | typeOf =>
    apply (argument_emits args 0).bind
    intro v _
    rw [typeName_rename]
    exact emits_atom trivial

/-- A call prints and draws, whatever the names of frames and closures in its arguments are. -/
theorem call_emits (b : Builtin) :
    Emits b.Draws (rename ρ) (Made args) (call b args) (call b (args.map (rename ρ))) := by
  unfold call
  rw [List.length_map]
  exact (emits_ofExcept_id _).bind fun _ _ => body_emits args b

/-- A call leaves the store alone, ends as admitted, and gives a value that holds no others or the
list of the arguments. -/
theorem call_made {I : Store → Prop} {E : Halt → Prop} (hE : Halt.Admitted E) (b : Builtin) :
    Meets I (Made args) E (call b args) := by
  intro m hm
  obtain ⟨-, -, -, -, -, -, hmade⟩ := call_emits (ρ := .id) args b m m rfl
  obtain ⟨hends, hstore⟩ := call_meets hE b args m hm
  exact ⟨hmade.and_error hends, hstore⟩

end Builtin

/-- A builtin respects a coupling of machines with the same source of random numbers that respects
printing and, if the builtin draws, drawing. -/
theorem Coupling.Lawful.couples_call {c : Coupling} (hc : c.Lawful) {m : Machine} (b : Builtin)
    {args : List Value} (hargs : ∀ a ∈ args, c.IsValue m a)
    (h : ∀ m', c.Related m m' → m'.random = m.random ∧ ∀ text source,
      source = m.random ∨ b.Draws → c.Related (m.emit text source) (m'.emit text source)) :
    c.Couples m (Value.rename c.names) c.IsValue (b.call args)
      (b.call (args.map (Value.rename c.names))) := by
  intro m' hm
  obtain ⟨hrandom, hemit⟩ := h m' hm
  obtain ⟨text, source, hsource, hx, hy, hsame, hmade⟩ := b.call_emits args m m' hrandom
  have hgrows : m.Grows (m.emit text source) := ⟨le_rfl, le_rfl⟩
  rw [hx, hy]
  refine .inr ⟨hgrows, hemit text source hsource, hsame, hmade.mono ?_⟩
  rintro v (hatom | rfl)
  · exact hc.value_of_atom hatom
  · exact hc.value_list fun a ha => hc.value_mono hgrows (hargs a ha)

end MatrixLisp
