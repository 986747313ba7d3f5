import MatrixLisp.Error.Fault
import MatrixLisp.Value.Basic

/-!
# Frames and the store

A frame binds names to values. All frames live in one store and are never removed; scopes refer to
them by position, so that a binding made later in a frame is seen through every scope that has it.
-/
namespace MatrixLisp

/-- Names with their values; a name occurs once. -/
abbrev Frame := List (String × Value)

namespace Frame

def find? (frame : Frame) (name : String) : Option Value := frame.lookup name

/-- Binds a name, in place of an older binding of it. -/
def bind : Frame → String → Value → Frame
  | [], name, value => [(name, value)]
  | (n, v) :: rest, name, value =>
    if n = name then (n, value) :: rest else (n, v) :: bind rest name value

/-- The frame that results from binding names one after another. -/
def ofList (bindings : List (String × Value)) : Frame :=
  bindings.foldl (fun frame (binding : String × Value) => frame.bind binding.1 binding.2) []

def names (frame : Frame) : List String :=
  (frame.map Prod.fst).mergeSort fun a b => decide (a ≤ b)

/-- Binds parameters to arguments, position by position. -/
def bindParams : List Value → List Value → Frame → Except Fault Frame
  | param :: params, arg :: args, frame =>
    match param.symbol? with
    | some name => bindParams params args (frame.bind name arg)
    | none => .error (.parameterType param.typeName)
  | _, _, frame => .ok frame

/-- The frame of a call: as many arguments as parameters, and every parameter a symbol. -/
def ofParams (params args : List Value) : Except Fault Frame :=
  if params.length = args.length then bindParams params args []
  else .error (.closureArity params.length args.length)

@[simp]
theorem find?_bind_self (frame : Frame) (name : String) (value : Value) :
    (frame.bind name value).find? name = some value := by
  induction frame with
  | nil => simp [bind, find?]
  | cons b rest ih =>
    obtain ⟨n, v⟩ := b
    by_cases h : n = name
    · simp [bind, find?, h]
    · have h' : (name == n) = false := by simpa using fun e => h e.symm
      simpa [bind, find?, h, h', List.lookup_cons] using ih

theorem find?_bind_of_ne (frame : Frame) {name other : String} (value : Value)
    (h : other ≠ name) : (frame.bind name value).find? other = frame.find? other := by
  have ho : (other == name) = false := by simpa using h
  induction frame with
  | nil => simp [bind, find?, List.lookup_cons, ho]
  | cons b rest ih =>
    obtain ⟨n, v⟩ := b
    by_cases hn : n = name
    · simp [bind, find?, hn, List.lookup_cons, ho]
    · by_cases hno : other = n
      · simp [bind, find?, hn, hno]
      · have hno' : (other == n) = false := by simpa using hno
        simpa [bind, find?, hn, hno', List.lookup_cons] using ih

end Frame

structure Store where
  frames : Array Frame

namespace Store

def empty : Store := ⟨#[]⟩

/-- The bindings of a frame; a frame that is not there binds nothing. -/
def frame (s : Store) (id : FrameId) : Frame := s.frames.getD id []

/-- Adds a frame. Its position is the number of frames so far. -/
def push (s : Store) (frame : Frame) : Store := ⟨s.frames.push frame⟩

/-- Adds a frame that stands alone, with its scope. -/
def root (s : Store) (frame : Frame) : Scope × Store :=
  (⟨s.frames.size, []⟩, s.push frame)

/-- Adds a frame inside a scope, with the scope that starts at it. -/
def nest (s : Store) (scope : Scope) (frame : Frame) : Scope × Store :=
  (scope.extend s.frames.size, s.push frame)

def nestCall (s : Store) (scope : Scope) (params args : List Value) :
    Except Fault (Scope × Store) :=
  (Frame.ofParams params args).map (s.nest scope)

def bind (s : Store) (scope : Scope) (name : String) (value : Value) : Store :=
  ⟨s.frames.modify scope.inner (·.bind name value)⟩

/-- The value of a name: that of the innermost frame which binds it. -/
def find? (s : Store) (scope : Scope) (name : String) : Option Value :=
  scope.chain.findSome? fun id => (s.frame id).find? name

def isLocal (s : Store) (scope : Scope) (name : String) : Bool :=
  ((s.frame scope.inner).find? name).isSome

def names (s : Store) (scope : Scope) : List String := (s.frame scope.inner).names

def lookup (s : Store) (scope : Scope) (name : String) : Except Fault Value :=
  match s.find? scope name with
  | some value => .ok value
  | none => .error (.unbound name)

end Store

end MatrixLisp
