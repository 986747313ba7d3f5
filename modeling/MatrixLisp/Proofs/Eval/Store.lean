import Mathlib.Tactic
import MatrixLisp.Eval.Store

/-!
# What happens to the frames of a store

A store changes in two ways only: a frame is added after all others, or a name is bound in one
frame. Each frame of the changed store is told from the frames before, and what holds of all bindings
of a frame still does after one more.
-/
namespace MatrixLisp

namespace Frame

variable {P : String → Value → Prop}

theorem mem_of_find? {frame : Frame} {name : String} {value : Value}
    (h : frame.find? name = some value) : (name, value) ∈ frame := by
  induction frame with
  | nil => cases h
  | cons first rest ih =>
    obtain ⟨n, v⟩ := first
    rw [find?, List.lookup_cons] at h
    split at h
    · rename_i hn
      cases h
      rw [eq_of_beq hn]
      exact List.mem_cons_self
    · exact List.mem_cons_of_mem _ (ih h)

theorem forall_bind {frame : Frame} (hframe : ∀ b ∈ frame, P b.1 b.2) {name : String}
    {value : Value} (h : P name value) : ∀ b ∈ frame.bind name value, P b.1 b.2 := by
  induction frame with
  | nil =>
    intro b hb
    rw [List.mem_singleton.mp hb]
    exact h
  | cons first rest ih =>
    have hrest : ∀ b ∈ rest, P b.1 b.2 := fun b hb => hframe b (by simp [hb])
    intro b hb
    unfold bind at hb
    split_ifs at hb with hname
    · rcases List.mem_cons.mp hb with rfl | hb
      · rw [hname]
        exact h
      · exact hrest b hb
    · rcases List.mem_cons.mp hb with rfl | hb
      · exact hframe _ (by simp)
      · exact ih hrest b hb

theorem forall_ofList {bindings : List (String × Value)} (h : ∀ b ∈ bindings, P b.1 b.2) :
    ∀ b ∈ ofList bindings, P b.1 b.2 := by
  suffices hfold : ∀ frame : Frame, (∀ b ∈ frame, P b.1 b.2) →
      ∀ b ∈ bindings.foldl
        (fun frame (binding : String × Value) => frame.bind binding.1 binding.2) frame,
        P b.1 b.2 from hfold [] (by simp)
  induction bindings with
  | nil => exact fun frame hframe => hframe
  | cons b rest ih =>
    intro frame hframe
    exact ih (fun b hb => h b (by simp [hb])) _ (forall_bind hframe (h b (by simp)))

end Frame

namespace Store

@[simp] theorem size_push (s : Store) (frame : Frame) :
    (s.push frame).frames.size = s.frames.size + 1 := Array.size_push ..

@[simp] theorem size_bind (s : Store) (scope : Scope) (name : String) (value : Value) :
    (s.bind scope name value).frames.size = s.frames.size := Array.size_modify

theorem frame_eq_getElem? (s : Store) (id : FrameId) : s.frame id = s.frames[id]?.getD [] :=
  Array.getD_eq_getD_getElem?

theorem frame_of_size_le {s : Store} {id : FrameId} (h : s.frames.size ≤ id) : s.frame id = [] := by
  simp [frame_eq_getElem?, Array.getElem?_eq_none h]

@[simp] theorem frame_push_self (s : Store) (frame : Frame) :
    (s.push frame).frame s.frames.size = frame := by
  simp [frame_eq_getElem?, push]

theorem frame_push_of_ne (s : Store) (frame : Frame) {id : FrameId} (h : id ≠ s.frames.size) :
    (s.push frame).frame id = s.frame id := by
  simp [frame_eq_getElem?, push, Array.getElem?_push, h]

theorem frame_bind_of_ne (s : Store) {scope : Scope} (name : String) (value : Value) {id : FrameId}
    (h : id ≠ scope.inner) : (s.bind scope name value).frame id = s.frame id := by
  simp [frame_eq_getElem?, bind, Array.getElem?_modify, h.symm]

theorem frame_bind_self (s : Store) {scope : Scope} (name : String) (value : Value)
    (h : scope.inner < s.frames.size) :
    (s.bind scope name value).frame scope.inner = (s.frame scope.inner).bind name value := by
  simp [frame_eq_getElem?, bind, Array.getElem?_modify, Array.getElem?_eq_getElem h]

/-- A name cannot be bound in a frame that is not there. -/
theorem bind_of_size_le (s : Store) {scope : Scope} (name : String) (value : Value)
    (h : s.frames.size ≤ scope.inner) (id : FrameId) :
    (s.bind scope name value).frame id = s.frame id := by
  by_cases hid : id = scope.inner
  · subst hid
    simp [frame_eq_getElem?, bind, Array.getElem?_modify, Array.getElem?_eq_none h]
  · exact frame_bind_of_ne s name value hid

/-- All values that are bound in frames are as described. -/
def All (P : Value → Prop) (s : Store) : Prop := ∀ id, ∀ b ∈ s.frame id, P b.2

namespace All

variable {P : Value → Prop} {s : Store}

theorem empty : Store.empty.All P := by
  intro id b hb
  simp [frame_eq_getElem?, Store.empty] at hb

theorem push (h : s.All P) {frame : Frame} (hframe : ∀ b ∈ frame, P b.2) : (s.push frame).All P := by
  intro id
  by_cases hid : id = s.frames.size
  · rw [hid, frame_push_self]
    exact hframe
  · rw [frame_push_of_ne s frame hid]
    exact h id

theorem bind (h : s.All P) (scope : Scope) (name : String) {value : Value} (hvalue : P value) :
    (s.bind scope name value).All P := by
  intro id
  by_cases hid : id = scope.inner
  · subst hid
    by_cases hinner : scope.inner < s.frames.size
    · rw [frame_bind_self s name value hinner]
      exact Frame.forall_bind (P := fun _ v => P v) (h _) hvalue
    · rw [bind_of_size_le s name value (Nat.le_of_not_lt hinner)]
      exact h _
  · rw [frame_bind_of_ne s name value hid]
    exact h id

theorem find? (h : s.All P) {scope : Scope} {name : String} {value : Value}
    (hfind : s.find? scope name = some value) : P value := by
  obtain ⟨id, -, hid⟩ := List.exists_of_findSome?_eq_some hfind
  exact h id _ (Frame.mem_of_find? hid)

end All

end Store

end MatrixLisp
