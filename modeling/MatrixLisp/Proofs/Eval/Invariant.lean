import Mathlib.Tactic
import MatrixLisp.Eval.Machine

/-!
# Runs that keep an invariant

A run meets a specification if, from every store with an invariant, it ends with a value or a halt
as described and leaves a store with the invariant, whether it ends with the one or the other.
Specifications compose along sequences of runs. Runs that do not touch the store keep every
invariant of it.
-/
namespace MatrixLisp

/-- A result is a value or an error as described. -/
def Outcome {α ε : Type} (P : α → Prop) (E : ε → Prop) : Except ε α → Prop
  | .ok a => P a
  | .error e => E e

namespace Outcome

variable {α β ε : Type} {P : α → Prop} {Q : β → Prop} {E : ε → Prop}

@[simp] theorem ok_iff {a : α} : Outcome P E (.ok a) ↔ P a := Iff.rfl

@[simp] theorem error_iff {e : ε} : Outcome P E (.error e) ↔ E e := Iff.rfl

theorem of_eq_ok {x : Except ε α} (h : Outcome P E x) {a : α} (hx : x = .ok a) : P a := by
  rw [hx] at h
  exact h

theorem bind {x : Except ε α} (h : Outcome P E x) {f : α → Except ε β}
    (hf : ∀ a, P a → Outcome Q E (f a)) : Outcome Q E (x >>= f) := by
  cases x with
  | ok a => exact hf a h
  | error e => exact h

theorem map {x : Except ε α} (h : Outcome P E x) {f : α → β} (hf : ∀ a, P a → Q (f a)) :
    Outcome Q E (x.map f) := by
  cases x with
  | ok a => exact hf a h
  | error e => exact h

theorem mono {x : Except ε α} (h : Outcome P E x) {P' : α → Prop} (hP : ∀ a, P a → P' a) :
    Outcome P' E x := by
  cases x with
  | ok a => exact hP a h
  | error e => exact h

theorem mono_error {x : Except ε α} (h : Outcome P E x) {E' : ε → Prop} (hE : ∀ e, E e → E' e) :
    Outcome P E' x := by
  cases x with
  | ok a => exact h
  | error e => exact hE e h

/-- Values as described in one way, errors as described in another. -/
theorem and_error {x : Except ε α} (h : Outcome P E x) {P' : α → Prop} {E' : ε → Prop}
    (h' : Outcome P' E' x) : Outcome P E' x := by
  cases x with
  | ok a => exact h
  | error e => exact h'

theorem intro (x : Except ε α) : Outcome (fun _ => True) (fun _ => True) x := by
  cases x <;> trivial

/-- Results for all elements are as many as the elements. -/
theorem mapM {f : β → Except ε α} {bs : List β} (hf : ∀ b ∈ bs, Outcome (fun _ => True) E (f b)) :
    Outcome (fun as : List α => as.length = bs.length) E (bs.mapM f) := by
  induction bs with
  | nil => rfl
  | cons b bs ih =>
    have hbs := ih fun b hb => hf b (by simp [hb])
    rw [List.mapM_cons]
    refine (hf b (by simp)).bind fun a _ => hbs.bind fun as has => ?_
    exact congrArg (· + 1) has

end Outcome

/-- Any halt but the fault of a parameter that is no symbol. -/
def Halt.Ordinary (h : Halt) : Prop := ∀ got, h ≠ .fault (.parameterType got)

/-- Ordinary faults and crashes are among the halts as described. -/
structure Halt.Admitted (E : Halt → Prop) : Prop where
  fault : ∀ f : Fault, (Halt.fault f).Ordinary → E (.fault f)
  crash : ∀ c : Crash, E (.crash c)

theorem Halt.admitted_ordinary : Admitted Ordinary := ⟨fun _ h => h, fun _ => nofun⟩

theorem Halt.admitted_true : Admitted fun _ => True := ⟨fun _ _ => trivial, fun _ => trivial⟩

/-- A value as described, or an ordinary fault. -/
abbrev Gives {α : Type} (P : α → Prop) : Except Fault α → Prop :=
  Outcome P fun f => (Halt.fault f).Ordinary

namespace Run

/-- From a store with an invariant, a run ends as described and keeps the invariant. -/
def Meets {α : Type} (I : Store → Prop) (P : α → Prop) (E : Halt → Prop) (x : Run α) : Prop :=
  ∀ m : Machine, I m.store → Outcome P E (x m).1 ∧ I (x m).2.store

/-- From a store with an invariant, two runs are the same, end as described and keep the
invariant. -/
def Agree {α : Type} (I : Store → Prop) (P : α → Prop) (E : Halt → Prop) (x y : Run α) : Prop :=
  ∀ m : Machine, I m.store → y m = x m ∧ Outcome P E (x m).1 ∧ I (x m).2.store

variable {α β : Type} {I : Store → Prop} {P : α → Prop} {Q : β → Prop} {E : Halt → Prop}

theorem Meets.agree {x : Run α} (h : Meets I P E x) : Agree I P E x x := fun m hm => ⟨rfl, h m hm⟩

theorem Agree.meets {x y : Run α} (h : Agree I P E x y) : Meets I P E x := fun m hm => (h m hm).2

theorem Agree.bind {x y : Run α} (h : Agree I P E x y) {f g : α → Run β}
    (hf : ∀ a, P a → Agree I Q E (f a) (g a)) : Agree I Q E (x >>= f) (y >>= g) := by
  intro m hm
  obtain ⟨hxy, hx, hI⟩ := h m hm
  cases hr : x m with
  | mk r m' =>
    rw [hr] at hx hI hxy
    cases r with
    | ok a =>
      rw [bind_apply_of_ok f hr, bind_apply_of_ok g hxy]
      exact hf a hx m' hI
    | error e =>
      rw [bind_apply_of_error f hr, bind_apply_of_error g hxy]
      exact ⟨rfl, hx, hI⟩

theorem Meets.bind {x : Run α} (h : Meets I P E x) {f : α → Run β}
    (hf : ∀ a, P a → Meets I Q E (f a)) : Meets I Q E (x >>= f) :=
  (h.agree.bind fun a ha => (hf a ha).agree).meets

theorem meets_pure {a : α} (h : P a) : Meets I P E (pure a) := fun _ hm => ⟨h, hm⟩

theorem meets_halt {h : Halt} (hE : E h) : Meets I P E (halt h) := fun _ hm => ⟨hE, hm⟩

theorem meets_raise {f : Fault} (hE : E (.fault f)) : Meets I P E (raise f) := meets_halt hE

theorem Meets.mono {x : Run α} (h : Meets I P E x) {P' : α → Prop} (hP : ∀ a, P a → P' a) :
    Meets I P' E x := by
  intro m hm
  obtain ⟨hx, hI⟩ := h m hm
  exact ⟨hx.mono hP, hI⟩

theorem meets_ofExcept {r : Except Fault α} (h : Outcome P (fun f => E (.fault f)) r) :
    Meets I P E (ofExcept r) := by
  cases r with
  | ok a => exact meets_pure h
  | error f => exact meets_raise h

/-- What gives a value or an ordinary fault meets every specification that admits such. -/
theorem meets_ofExcept_of_gives (hE : Halt.Admitted E) {r : Except Fault α} (h : Gives P r) :
    Meets I P E (ofExcept r) :=
  meets_ofExcept (h.mono_error hE.fault)

theorem meets_withStore {f : Store → Except Fault α}
    (h : ∀ s, I s → Outcome P (fun f => E (.fault f)) (f s)) : Meets I P E (withStore f) := by
  intro m hm
  exact meets_ofExcept (h m.store hm) m hm

theorem meets_makeClosure {params : List Value} {body : Value} {scope : Scope} {P : Value → Prop}
    (h : ∀ id, P (.closure id params body scope)) : Meets I P E (makeClosure params body scope) :=
  fun m hm => ⟨h m.closures, hm⟩

theorem meets_print (text : String) : Meets I (fun _ => True) E (print text) :=
  fun _ hm => ⟨trivial, hm⟩

theorem meets_bindName {scope : Scope} {name : String} {value : Value}
    (h : ∀ s, I s → I (s.bind scope name value)) :
    Meets I (fun _ => True) E (bindName scope name value) :=
  fun m hm => ⟨trivial, h m.store hm⟩

/-- A run keeps an invariant, however it ends. -/
abbrev Keeps (I : Store → Prop) (x : Run α) : Prop := Meets I (fun _ => True) (fun _ => True) x

theorem Meets.keeps {x : Run α} (h : Meets I P E x) : Keeps I x := fun m hm =>
  ⟨Outcome.intro _, (h m hm).2⟩

end Run

end MatrixLisp
