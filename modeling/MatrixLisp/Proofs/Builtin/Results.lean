import Mathlib.Tactic
import MatrixLisp.Builtin.Call
import MatrixLisp.Proofs.Value.Operations

/-!
# What the builtins can do

No builtin touches the store, so that every invariant of the store outlasts a call. From well-formed
arguments a builtin makes well-formed values, and the fault of a parameter that is no symbol is none
of its own. Both are shown at once, function by function.
-/
namespace MatrixLisp.Builtin

open Run

variable {I : Store → Prop} {E : Halt → Prop} (hE : Halt.Admitted E) (b : Builtin)
  (args : List Value)

theorem itemsOf_gives (v : Value) : Gives (fun _ => True) (b.itemsOf v) := by
  unfold itemsOf
  split
  · trivial
  · exact nofun

theorem floatOf_gives (v : Value) : Gives (fun _ => True) (b.floatOf v) := by
  unfold floatOf
  split
  · trivial
  · exact nofun

theorem intOf_gives (v : Value) : Gives (fun _ => True) (b.intOf v) := by
  unfold intOf
  split
  · trivial
  · exact nofun

theorem dimensionOf_gives (v : Value) : Gives (fun _ => True) (b.dimensionOf v) := by
  apply (b.intOf_gives v).bind
  intro n _
  split_ifs
  · trivial
  · exact nofun

theorem lengthOf_gives (v : Value) : Gives (fun _ => True) (b.lengthOf v) := by
  unfold lengthOf
  split
  all_goals first | trivial | exact nofun

theorem countValue_gives (n : ℕ) : Gives Value.WellFormed (countValue n) := by
  unfold countValue
  split
  · exact .int _
  · exact nofun

theorem matrixOf_gives (items : List Value) : Gives Matrix.WellFormed (matrixOf items) := by
  unfold matrixOf
  split_ifs
  · exact rfl
  · refine (Outcome.mapM fun row _ => ?_).bind fun rows _ => Matrix.ofRows_gives rows
    exact (Outcome.mapM fun v _ => matrix.floatOf_gives v).mono fun _ _ => trivial

theorem multiply_gives (v w : Value) : Gives Value.WellFormed (multiply v w) := by
  unfold multiply
  split
  · exact (Matrix.dot_gives ..).map fun _ hm => .matrix hm
  · exact (NumVector.dot_gives ..).map fun _ _ => .float _
  · exact nofun

/-- As many floats are drawn as asked for. -/
theorem size_drawMany {draw : Source → Option (Float × Source)} {n : ℕ} {drawn : Array Float}
    {source : Source} {data : Array Float} {after : Source}
    (h : drawMany draw n drawn source = some (data, after)) : data.size = drawn.size + n := by
  induction n generalizing drawn source with
  | zero =>
    cases h
    rfl
  | succ n ih =>
    rw [drawMany] at h
    split at h
    · have hsize := ih h
      rw [Array.size_push] at hsize
      omega
    · cases h

/-- What a builtin makes of its arguments is well-formed if they are. -/
def Preserves (v : Value) : Prop := (∀ a ∈ args, a.WellFormed) → v.WellFormed

variable {args} in
theorem Preserves.of_wellFormed {v : Value} (h : v.WellFormed) : Preserves args v := fun _ => h

section

include hE

theorem argument_meets (i : ℕ) : Meets I (· ∈ args) E (argument args i) := by
  unfold argument
  split
  · rename_i hv
    exact meets_pure (List.mem_of_getElem? hv)
  · exact meets_halt (hE.crash _)

theorem shapeOf_meets : Meets I (fun _ => True) E (b.shapeOf args) := by
  apply (argument_meets hE args 0).bind
  intro v _
  apply (meets_ofExcept_of_gives hE (b.dimensionOf_gives v)).bind
  intro rows _
  split
  · exact (meets_ofExcept_of_gives hE (b.dimensionOf_gives _)).bind fun _ _ => meets_pure trivial
  · exact meets_pure trivial

theorem optional_meets {α : Type} (i : ℕ) (absent : α) {convert : Value → Except Fault α}
    (h : ∀ v, Gives (fun _ => True) (convert v)) :
    Meets I (fun _ => True) E (optional args i absent convert) := by
  unfold optional
  split
  · exact meets_ofExcept_of_gives hE (h _)
  · exact meets_pure trivial

theorem randomMatrix_meets (shape : ℕ × ℕ) (draw : Source → Option (Float × Source)) :
    Meets I Matrix.WellFormed E (randomMatrix shape draw) := by
  apply (meets_ofExcept_of_gives hE (Matrix.checkShape_gives ..)).bind
  intro _ _ m hm
  dsimp only
  cases hdraw : drawMany draw (shape.1 * shape.2) #[] m.random with
  | some drawn =>
    refine ⟨?_, hm⟩
    have hsize := size_drawMany hdraw
    simpa [Matrix.WellFormed] using hsize
  | none => exact ⟨hE.crash _, hm⟩

theorem callRandomInts_meets : Meets I Value.WellFormed E (callRandomInts args) := by
  apply (shapeOf_meets hE randomInts args).bind
  intro shape _
  apply (optional_meets hE args 2 _ randomInts.intOf_gives).bind
  intro least _
  apply (optional_meets hE args 3 _ randomInts.intOf_gives).bind
  intro greatest _
  split
  · exact meets_raise (hE.fault _ nofun)
  · exact (randomMatrix_meets hE _ _).bind fun m hm => meets_pure (.matrix hm)

theorem callRandomFloats_meets : Meets I Value.WellFormed E (callRandomFloats args) := by
  apply (shapeOf_meets hE randomFloats args).bind
  intro shape _
  apply (optional_meets hE args 2 _ randomFloats.floatOf_gives).bind
  intro least _
  apply (optional_meets hE args 3 _ randomFloats.floatOf_gives).bind
  intro greatest _
  split
  · exact meets_raise (hE.fault _ nofun)
  · split
    · exact meets_raise (hE.fault _ nofun)
    · exact (randomMatrix_meets hE _ _).bind fun m hm => meets_pure (.matrix hm)

theorem callOperator_meets (op : Operator) :
    Meets I (Preserves args) E (callOperator op args) := by
  apply (argument_meets hE args 0).bind
  intro v hv
  apply (argument_meets hE args 1).bind
  intro w hw
  refine meets_ofExcept_of_gives hE ((Value.binary_gives op v w).mono fun result h hargs => ?_)
  exact h (hargs v hv) (hargs w hw)

theorem body_meets : Meets I (Preserves args) E (b.body args) := by
  cases b with
  | add => exact callOperator_meets hE args _
  | sub => exact callOperator_meets hE args _
  | mul => exact callOperator_meets hE args _
  | div => exact callOperator_meets hE args _
  | equal => exact callOperator_meets hE args _
  | notEqual => exact callOperator_meets hE args _
  | less => exact callOperator_meets hE args _
  | lessEqual => exact callOperator_meets hE args _
  | greater => exact callOperator_meets hE args _
  | greaterEqual => exact callOperator_meets hE args _
  | product =>
    apply (argument_meets hE args 0).bind
    intro v _
    apply (argument_meets hE args 1).bind
    intro w _
    exact meets_ofExcept_of_gives hE ((multiply_gives v w).mono fun _ => .of_wellFormed)
  | not => exact (argument_meets hE args 0).bind fun v _ => meets_pure (.of_wellFormed (.bool _))
  | print =>
    unfold body
    dsimp only
    split
    · exact (meets_print _).bind fun _ _ => meets_pure (.of_wellFormed .nil)
    · exact meets_pure (.of_wellFormed .nil)
  | numVector =>
    apply (argument_meets hE args 0).bind
    intro v _
    apply (meets_ofExcept_of_gives hE (itemsOf_gives _ v)).bind
    intro items _
    apply (meets_ofExcept_of_gives hE (Outcome.mapM fun v _ => floatOf_gives _ v)).bind
    intro data _
    exact meets_pure (.of_wellFormed (.numVector _))
  | matrix =>
    apply (argument_meets hE args 0).bind
    intro v _
    apply (meets_ofExcept_of_gives hE (itemsOf_gives _ v)).bind
    intro items _
    exact (meets_ofExcept_of_gives hE (matrixOf_gives items)).bind fun m hm =>
      meets_pure (.of_wellFormed (.matrix hm))
  | identity =>
    apply (argument_meets hE args 0).bind
    intro v _
    apply (meets_ofExcept_of_gives hE (dimensionOf_gives _ v)).bind
    intro n _
    exact (meets_ofExcept_of_gives hE (Matrix.ofFn_gives ..)).bind fun m hm =>
      meets_pure (.of_wellFormed (.matrix hm))
  | zeros =>
    apply (shapeOf_meets hE _ args).bind
    intro shape _
    exact (meets_ofExcept_of_gives hE (Matrix.zeros_gives ..)).bind fun m hm =>
      meets_pure (.of_wellFormed (.matrix hm))
  | randomInts => exact (callRandomInts_meets hE args).mono fun _ => .of_wellFormed
  | randomFloats => exact (callRandomFloats_meets hE args).mono fun _ => .of_wellFormed
  | transpose =>
    apply (argument_meets hE args 0).bind
    intro v _
    split
    · exact meets_pure (.of_wellFormed (.matrix (Matrix.wellFormed_build ..)))
    · exact meets_raise (hE.fault _ nofun)
  | list => exact meets_pure fun hargs => .list hargs
  | isList =>
    apply (argument_meets hE args 0).bind
    intro v _
    split
    · exact meets_pure (.of_wellFormed (.bool _))
    · exact meets_pure (.of_wellFormed (.bool _))
  | isEmpty =>
    apply (argument_meets hE args 0).bind
    intro v _
    exact (meets_ofExcept_of_gives hE (lengthOf_gives _ v)).bind fun n _ =>
      meets_pure (.of_wellFormed (.bool _))
  | count =>
    apply (argument_meets hE args 0).bind
    intro v _
    apply (meets_ofExcept_of_gives hE (lengthOf_gives _ v)).bind
    intro n _
    exact meets_ofExcept_of_gives hE ((countValue_gives n).mono fun _ => .of_wellFormed)
  | typeOf =>
    exact (argument_meets hE args 0).bind fun v _ => meets_pure (.of_wellFormed (.symbol _))

/-- A call leaves the store alone, makes well-formed values from such, and never blames a
parameter. -/
theorem call_meets : Meets I (Preserves args) E (call b args) := by
  have harity : Gives (fun _ => True) (checkArity b.name b.arity args.length) := by
    unfold checkArity
    split_ifs
    · trivial
    · exact nofun
  exact (meets_ofExcept_of_gives hE harity).bind fun _ _ => body_meets hE b args

end

theorem call_of_accepts (h : b.arity.accepts args.length = true) : call b args = b.body args := by
  rw [call, checkArity, if_pos h]
  rfl

theorem call_of_not_accepts (h : b.arity.accepts args.length = false) :
    call b args = raise (.arity b.name b.arity args.length) := by
  rw [call, checkArity, if_neg (Bool.not_eq_true _ ▸ h)]
  rfl

end MatrixLisp.Builtin
