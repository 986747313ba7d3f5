import Mathlib.Tactic
import MatrixLisp.Proofs.Builtin.Effects
import MatrixLisp.Proofs.Eval.Frames

/-!
# A machine with more frames and closures

A machine is closed if the values in its frames name no frames and closures but those that there
are. Another machine mirrors it if it has the same frames, the new ones under later names, and
perhaps others in between that nothing refers to. Evaluation keeps machines closed and goes alike on
a machine and on one that mirrors it.
-/
namespace MatrixLisp

namespace Machine

/-- A value names only frames and closures of the machine. -/
def Has (m : Machine) (v : Value) : Prop := v.LivesIn m.store.frames.size m.closures

/-- Every value in every frame names only frames and closures of the machine. -/
def Closed (m : Machine) : Prop := ∀ id, ∀ b ∈ m.store.frame id, m.Has b.2

theorem Grows.has {m m' : Machine} (h : m.Grows m') {v : Value} (hv : m.Has v) : m'.Has v :=
  hv.mono h.frames h.closures

end Machine

namespace Renaming

/-- The numbers from `base` on are moved up. -/
def moveUp (base distance n : ℕ) : ℕ := if n < base then n else n + distance

theorem moveUp_of_lt {base n : ℕ} (h : n < base) (distance : ℕ) : moveUp base distance n = n :=
  if_pos h

theorem moveUp_of_le {base n : ℕ} (h : base ≤ n) (distance : ℕ) :
    moveUp base distance n = n + distance := if_neg (Nat.not_lt.mpr h)

theorem moveUp_base {base top : ℕ} (h : base ≤ top) : moveUp base (top - base) base = top := by
  rw [moveUp_of_le le_rfl, Nat.add_sub_cancel' h]

theorem moveUp_succ {base n : ℕ} (h : base ≤ n) (distance : ℕ) :
    moveUp base distance (n + 1) = moveUp base distance n + 1 := by
  rw [moveUp_of_le h, moveUp_of_le (h.trans (Nat.le_succ n))]
  omega

theorem moveUp_strictMono (base distance : ℕ) : StrictMono (moveUp base distance) := by
  intro n k h
  unfold moveUp
  split_ifs <;> omega

/-- The names of a first run for a second one: what is new since the start of the first is named as
what is new since the start of the second. -/
def between (first second : Machine) : Renaming where
  frame := moveUp first.store.frames.size
    (second.store.frames.size - first.store.frames.size)
  closure := moveUp first.closures (second.closures - first.closures)
  frame_injective := (moveUp_strictMono ..).injective
  closure_injective := (moveUp_strictMono ..).injective

end Renaming

/-- Since the start of two runs, the second machine has grown as the first has: the same frames but
for the names, and the same text. -/
structure Mirrors (first second m m' : Machine) : Prop where
  grows : first.Grows m
  closed : m.Closed
  size_eq : m'.store.frames.size = (Renaming.between first second).frame m.store.frames.size
  closures_eq : m'.closures = (Renaming.between first second).closure m.closures
  frame_eq : ∀ id, m'.store.frame ((Renaming.between first second).frame id) =
    (m.store.frame id).rename (.between first second)
  output_eq : ∃ text, m.output = first.output ++ text ∧ m'.output = second.output ++ text
  random_eq : m'.random = m.random

/-- What a machine has is named alike on another one that has grown from it. -/
theorem Machine.Has.rename_between {first second : Machine} {v : Value} (h : first.Has v) :
    v.rename (.between first second) = v :=
  h.rename_eq (fun _ hid => Renaming.moveUp_of_lt hid _) fun _ hid => Renaming.moveUp_of_lt hid _

theorem Frame.rename_eq {frame : Frame} {ρ : Renaming} (h : ∀ b ∈ frame, b.2.rename ρ = b.2) :
    frame.rename ρ = frame := by
  rw [rename, List.map_congr_left fun b hb => by rw [h b hb], List.map_id']

/-- A closed machine is mirrored by every one that has grown from it and has kept its frames. -/
theorem mirrors_start {first second : Machine} (hclosed : first.Closed)
    (hkept : first.store.Kept second.store) (hclosures : first.closures ≤ second.closures)
    (hrandom : second.random = first.random) : Mirrors first second first second where
  grows := .refl first
  closed := hclosed
  size_eq := (Renaming.moveUp_base hkept.size_le).symm
  closures_eq := (Renaming.moveUp_base hclosures).symm
  frame_eq := by
    intro id
    by_cases hid : id < first.store.frames.size
    · have hname : (Renaming.between first second).frame id = id := Renaming.moveUp_of_lt hid _
      rw [hname, hkept.frame_eq id hid]
      exact (Frame.rename_eq fun b hb => (hclosed id b hb).rename_between).symm
    · -- Neither machine has the frame.
      have hid : first.store.frames.size ≤ id := Nat.le_of_not_lt hid
      have hname : second.store.frames.size ≤ (Renaming.between first second).frame id := by
        have hmono := (Renaming.moveUp_strictMono first.store.frames.size
          (second.store.frames.size - first.store.frames.size)).monotone hid
        rwa [Renaming.moveUp_base hkept.size_le] at hmono
      rw [Store.frame_of_size_le hname, Store.frame_of_size_le hid]
      rfl
  output_eq := ⟨"", by simp⟩
  random_eq := hrandom

/-- Machines that mirror each other since the start of two runs. -/
def Coupling.mirror (first second : Machine) : Coupling where
  names := .between first second
  Related := Mirrors first second
  IsForm := Machine.Has
  IsValue := Machine.Has
  IsScope m scope := scope.LivesIn m.store.frames.size
  lenient := False

namespace Mirrors

variable {first second m m' : Machine} (h : Mirrors first second m m')

include h

/-- A name that is found is found again, with its value renamed. -/
theorem find?_eq (scope : Scope) (name : String) :
    m'.store.find? (scope.rename (.between first second)) name =
      (m.store.find? scope name).map (Value.rename (.between first second)) := by
  unfold Store.find?
  rw [Scope.chain_rename, List.findSome?_map]
  induction scope.chain with
  | nil => rfl
  | cons id rest ih =>
    rw [List.findSome?_cons, List.findSome?_cons, Function.comp_apply, h.frame_eq,
      Frame.find?_rename]
    cases (m.store.frame id).find? name with
    | some v => rfl
    | none => exact ih

theorem bind {scope : Scope} (hscope : scope.LivesIn m.store.frames.size) (name : String)
    {value : Value} (hvalue : m.Has value) :
    Mirrors first second { m with store := m.store.bind scope name value }
      { m' with
        store := m'.store.bind (scope.rename (.between first second)) name
          (value.rename (.between first second)) } := by
  have hinner : scope.inner < m.store.frames.size := hscope _ (by simp [Scope.chain])
  have hinner' : (scope.rename (.between first second)).inner < m'.store.frames.size := by
    rw [h.size_eq]
    exact Renaming.moveUp_strictMono _ _ hinner
  have hsize : (m.store.bind scope name value).frames.size = m.store.frames.size :=
    Store.size_bind ..
  constructor
  · exact ⟨h.grows.frames.trans_eq hsize.symm, h.grows.closures⟩
  · intro id b hb
    show b.2.LivesIn (m.store.bind scope name value).frames.size m.closures
    rw [hsize]
    by_cases hid : id = scope.inner
    · subst hid
      rw [Store.frame_bind_self _ _ _ hinner] at hb
      exact Frame.forall_bind (P := fun _ v => m.Has v) (h.closed _) hvalue b hb
    · rw [Store.frame_bind_of_ne _ _ _ hid] at hb
      exact h.closed id b hb
  · rw [Store.size_bind, Store.size_bind]
    exact h.size_eq
  · exact h.closures_eq
  · intro id
    by_cases hid : id = scope.inner
    · subst hid
      rw [Store.frame_bind_self _ _ _ hinner, ← Frame.bind_rename, ← h.frame_eq]
      exact Store.frame_bind_self _ _ _ hinner'
    · have hname : (Renaming.between first second).frame id ≠
          (scope.rename (.between first second)).inner :=
        fun heq => hid ((Renaming.between first second).frame_injective heq)
      rw [Store.frame_bind_of_ne _ _ _ hid, Store.frame_bind_of_ne _ _ _ hname]
      exact h.frame_eq id
  · exact h.output_eq
  · exact h.random_eq

theorem push {frame : Frame} (hframe : ∀ b ∈ frame, m.Has b.2) :
    Mirrors first second { m with store := m.store.push frame }
      { m' with store := m'.store.push (frame.rename (.between first second)) } := by
  have hgrows : m.Grows { m with store := m.store.push frame } :=
    ⟨(Store.size_push m.store frame).ge.trans' (Nat.le_succ _), le_rfl⟩
  constructor
  · exact h.grows.trans hgrows
  · intro id b hb
    by_cases hid : id = m.store.frames.size
    · subst hid
      rw [Store.frame_push_self] at hb
      exact hgrows.has (hframe b hb)
    · rw [Store.frame_push_of_ne _ _ hid] at hb
      exact hgrows.has (h.closed id b hb)
  · rw [Store.size_push, Store.size_push, h.size_eq]
    exact (Renaming.moveUp_succ h.grows.frames _).symm
  · exact h.closures_eq
  · intro id
    by_cases hid : id = m.store.frames.size
    · subst hid
      rw [← h.size_eq, Store.frame_push_self, Store.frame_push_self]
    · have hname : (Renaming.between first second).frame id ≠ m'.store.frames.size := by
        rw [h.size_eq]
        exact fun heq => hid ((Renaming.between first second).frame_injective heq)
      rw [Store.frame_push_of_ne _ _ hid, Store.frame_push_of_ne _ _ hname]
      exact h.frame_eq id
  · exact h.output_eq
  · exact h.random_eq

theorem addClosure :
    Mirrors first second { m with closures := m.closures + 1 }
      { m' with closures := m'.closures + 1 } := by
  have hgrows : m.Grows { m with closures := m.closures + 1 } := ⟨le_rfl, Nat.le_succ _⟩
  constructor
  · exact h.grows.trans hgrows
  · exact fun id b hb => hgrows.has (h.closed id b hb)
  · exact h.size_eq
  · show m'.closures + 1 = _
    rw [h.closures_eq]
    exact (Renaming.moveUp_succ h.grows.closures _).symm
  · exact h.frame_eq
  · exact h.output_eq
  · exact h.random_eq

theorem emit (text : String) (source : Source) :
    Mirrors first second (m.emit text source) (m'.emit text source) := by
  obtain ⟨before, hfirst, hsecond⟩ := h.output_eq
  have hgrows : first.Grows (m.emit text source) := ⟨h.grows.frames, h.grows.closures⟩
  refine ⟨hgrows, h.closed, h.size_eq, h.closures_eq, h.frame_eq, ⟨before ++ text, ?_, ?_⟩, rfl⟩
  · simp [Machine.emit, hfirst, String.append_assoc]
  · simp [Machine.emit, hsecond, String.append_assoc]

end Mirrors

namespace Coupling

variable (first second : Machine)

theorem lawful_mirror : (mirror first second).Lawful where
  form_mono h hv := h.has hv
  value_mono h hv := h.has hv
  scope_mono h hscope := fun id hid => (hscope id hid).trans_le h.frames
  form_items h hitems := h.items hitems
  form_entries := by
    intro m entries h
    cases h with
    | map hkeys hvalues => exact fun e he => ⟨hkeys e he, hvalues e he⟩
    | atom h => cases h
  value_of_form h := h
  value_of_atom h := .atom h
  value_list h := .list h
  value_vector h := .vector h
  value_map h := .map (fun e he => (h e he).1) fun e he => (h e he).2
  value_closure := by
    intro m id params body scope h
    cases h with
    | closure _ hparams hbody hscope => exact ⟨hparams, hbody, hscope⟩
    | atom h => cases h
  find? := by
    intro m m' scope name h _ _
    exact ⟨h.find?_eq scope name, fun v hv => Store.All.find? h.closed hv⟩
  related_bind h hscope _ hvalue := h.bind hscope _ hvalue
  related_push := by
    intro m m' scope frame h hscope hframe
    refine ⟨h.push fun b hb => (hframe b hb).2, h.size_eq.symm, ?_⟩
    show (scope.extend m.store.frames.size).LivesIn (m.store.push frame).frames.size
    rw [Store.size_push]
    intro id hid
    rcases List.mem_cons.mp hid with rfl | hid
    · exact Nat.lt_succ_self _
    · exact (hscope id hid).trans (Nat.lt_succ_self _)
  related_closure := by
    intro m m' params body scope h hparams hbody hscope
    have hgrows : m.Grows { m with closures := m.closures + 1 } := ⟨le_rfl, Nat.le_succ _⟩
    refine ⟨h.addClosure, h.closures_eq.symm, ?_⟩
    exact .closure (Nat.lt_succ_self _) (fun p hp => hgrows.has (hparams p hp)) (hgrows.has hbody)
      hscope

theorem evals_mirror (n : ℕ) :
    (mirror first second).Evals (Eval.evalDepth n) (Eval.evalDepth n) := by
  have hc := lawful_mirror first second
  refine evals_evalDepthWith hc (fun m b args hargs => ?_) (.inl rfl)
  apply hc.couples_call b hargs
  intro m' h
  exact ⟨h.random_eq, fun text source _ => h.emit text source⟩

end Coupling

end MatrixLisp
