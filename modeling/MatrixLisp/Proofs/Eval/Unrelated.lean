import Mathlib
import MatrixLisp.Proofs.Eval.Depth
import MatrixLisp.Proofs.Value.Symbols

/-!
# Bindings that a program does not name

Two stores that differ in one frame's binding of one name only stay so as long as other names are
bound, and no other name tells them apart. A program looks up and binds the symbols in it and in the
closures that it calls. If the name is none of them, evaluation goes alike on both stores, to the
same value and the same text.
-/
namespace MatrixLisp

open Value

/-- Two stores are the same but for the binding of a name in one frame. -/
structure Store.DifferAt (owner : FrameId) (name : String) (old new : Option Value) (s s' : Store) :
    Prop where
  owner_lt : owner < s.frames.size
  size_eq : s'.frames.size = s.frames.size
  frame_eq : ∀ id ≠ owner, s'.frame id = s.frame id
  find?_eq : ∀ other ≠ name, (s'.frame owner).find? other = (s.frame owner).find? other
  find?_old : (s.frame owner).find? name = old
  find?_new : (s'.frame owner).find? name = new

namespace Store

/-- A store differs from itself with one more binding. -/
theorem differAt_bind (s : Store) {target : Scope} (h : target.inner < s.frames.size)
    (name : String) (value : Value) :
    DifferAt target.inner name ((s.frame target.inner).find? name) (some value) s
      (s.bind target name value) where
  owner_lt := h
  size_eq := size_bind ..
  frame_eq id hid := frame_bind_of_ne s name value hid
  find?_eq other hother := by rw [frame_bind_self s name value h, Frame.find?_bind_of_ne _ _ hother]
  find?_old := rfl
  find?_new := by rw [frame_bind_self s name value h, Frame.find?_bind_self]

namespace DifferAt

variable {owner : FrameId} {name : String} {old new : Option Value} {s s' : Store}
  (h : DifferAt owner name old new s s')

include h

/-- Another name has the same value in both stores. -/
theorem find?_scope_eq (scope : Scope) {other : String} (hother : other ≠ name) :
    s'.find? scope other = s.find? scope other := by
  unfold Store.find?
  congr 1
  funext id
  by_cases hid : id = owner
  · rw [hid, h.find?_eq other hother]
  · rw [h.frame_eq id hid]

theorem push (frame : Frame) : DifferAt owner name old new (s.push frame) (s'.push frame) := by
  have hne : owner ≠ s.frames.size := Nat.ne_of_lt h.owner_lt
  have hne' : owner ≠ s'.frames.size := h.size_eq ▸ hne
  have howner := frame_push_of_ne s frame hne
  have howner' := frame_push_of_ne s' frame hne'
  constructor
  · rw [size_push]
    exact h.owner_lt.trans (Nat.lt_succ_self _)
  · rw [size_push, size_push, h.size_eq]
  · intro id hid
    by_cases hlast : id = s.frames.size
    · rw [hlast, frame_push_self, ← h.size_eq, frame_push_self]
    · rw [frame_push_of_ne s frame hlast, frame_push_of_ne s' frame (h.size_eq ▸ hlast),
        h.frame_eq id hid]
  · rw [howner, howner']
    exact h.find?_eq
  · rw [howner, h.find?_old]
  · rw [howner', h.find?_new]

/-- Binding another name, in whatever frame, keeps the difference. -/
theorem bind (scope : Scope) {other : String} (hother : other ≠ name) (value : Value) :
    DifferAt owner name old new (s.bind scope other value) (s'.bind scope other value) := by
  have hframe : ∀ id ≠ owner,
      (s'.bind scope other value).frame id = (s.bind scope other value).frame id := by
    intro id hid
    by_cases hinner : id = scope.inner
    · subst hinner
      rcases Nat.lt_or_ge scope.inner s.frames.size with hlt | hle
      · rw [frame_bind_self s other value hlt, frame_bind_self s' other value (h.size_eq ▸ hlt),
          h.frame_eq _ hid]
      · rw [bind_of_size_le s other value hle, bind_of_size_le s' other value (h.size_eq ▸ hle),
          h.frame_eq _ hid]
    · rw [frame_bind_of_ne s other value hinner, frame_bind_of_ne s' other value hinner,
        h.frame_eq id hid]
  have howner_lt : owner < (s.bind scope other value).frames.size := by
    rw [size_bind]
    exact h.owner_lt
  have hsize : (s'.bind scope other value).frames.size = (s.bind scope other value).frames.size := by
    rw [size_bind, size_bind, h.size_eq]
  by_cases hinner : owner = scope.inner
  · have hself := frame_bind_self s other value (hinner ▸ h.owner_lt)
    have hself' := frame_bind_self s' other value (hinner ▸ h.size_eq ▸ h.owner_lt)
    rw [← hinner] at hself hself'
    refine ⟨howner_lt, hsize, hframe, fun key hkey => ?_, ?_, ?_⟩
    · rw [hself, hself']
      by_cases hsame : key = other
      · rw [hsame, Frame.find?_bind_self, Frame.find?_bind_self]
      · rw [Frame.find?_bind_of_ne _ value hsame, Frame.find?_bind_of_ne _ value hsame,
          h.find?_eq key hkey]
    · rw [hself, Frame.find?_bind_of_ne _ value hother.symm, h.find?_old]
    · rw [hself', Frame.find?_bind_of_ne _ value hother.symm, h.find?_new]
  · have hkept := frame_bind_of_ne s other value hinner
    have hkept' := frame_bind_of_ne s' other value hinner
    refine ⟨howner_lt, hsize, hframe, ?_, ?_, ?_⟩
    · rw [hkept, hkept']
      exact h.find?_eq
    · rw [hkept, h.find?_old]
    · rw [hkept', h.find?_new]

end DifferAt

end Store

/-- The parameters and the body of a closure do not name a symbol. -/
def CodeOmits (name : String) (params : List Value) (body : Value) : Prop :=
  (∀ p ∈ params, p.Omits name) ∧ body.Omits name

/-- Two machines are the same but for the binding of a name in one frame, and no closure in the frames
of the first one names it. -/
structure Machine.DifferAt (owner : FrameId) (name : String) (old new : Option Value)
    (m m' : Machine) : Prop where
  stores : m.store.DifferAt owner name old new m'.store
  omits : m.store.All (AllClosures (CodeOmits name))
  closures_eq : m'.closures = m.closures
  output_eq : m'.output = m.output
  random_eq : m'.random = m.random

namespace Coupling

/-- Two machines that differ in one frame's binding of a name, with forms that do not name it. -/
def differ (owner : FrameId) (name : String) (old new : Option Value) : Coupling where
  names := .id
  Related := Machine.DifferAt owner name old new
  IsForm _ v := v.Omits name
  IsValue _ v := v.AllClosures (CodeOmits name)
  IsScope _ _ := True
  lenient := False

theorem lawful_differ (owner : FrameId) (name : String) (old new : Option Value) :
    (differ owner name old new).Lawful where
  form_mono _ h := h
  value_mono _ h := h
  scope_mono _ _ := trivial
  form_items h hitems := h.items hitems
  form_entries h := h.entries
  value_of_form h := h.closures
  value_of_atom h := .atom h
  value_list h := .list h
  value_vector h := .vector h
  value_map h := .map (fun e he => (h e he).1.closures) fun e he => (h e he).2
  value_closure := by
    intro m id params body scope h
    cases h with
    | atom h => cases h
    | closure h => exact ⟨h.1, h.2, trivial⟩
  find? := by
    intro m m' scope other h _ hother
    have hnames : Value.rename .id = id := funext Value.rename_id
    refine ⟨?_, fun v hv => h.omits.find? hv⟩
    simp [differ, hnames, h.stores.find?_scope_eq scope (Omits.symbol_iff.mp hother)]
  related_bind := by
    intro m m' scope other value h _ hother hvalue
    have hstores := h.stores.bind scope (Omits.symbol_iff.mp hother) value
    simp only [differ, Value.rename_id, Scope.rename_id]
    exact ⟨hstores, h.omits.bind scope other hvalue, h.closures_eq, h.output_eq, h.random_eq⟩
  related_push := by
    intro m m' scope frame h _ hframe
    have homits := h.omits.push fun b hb => (hframe b hb).2
    simp only [differ, Frame.rename_id]
    exact ⟨⟨h.stores.push frame, homits, h.closures_eq, h.output_eq, h.random_eq⟩,
      h.stores.size_eq.symm, trivial⟩
  related_closure := by
    intro m m' params body scope h hparams hbody _
    have hnext : m'.closures + 1 = m.closures + 1 := by rw [h.closures_eq]
    exact ⟨⟨h.stores, h.omits, hnext, h.output_eq, h.random_eq⟩, h.closures_eq.symm,
      .closure ⟨hparams, hbody⟩⟩

theorem evals_differ (owner : FrameId) (name : String) (old new : Option Value) (n : ℕ) :
    (differ owner name old new).Evals (Eval.evalDepth n) (Eval.evalDepth n) := by
  have hc := lawful_differ owner name old new
  refine evals_evalDepthWith hc (fun m b args hargs => ?_) (.inl rfl)
  apply hc.couples_call b hargs
  intro m' h
  refine ⟨h.random_eq, fun text source _ => ?_⟩
  have houtput : m'.output ++ text = m.output ++ text := by rw [h.output_eq]
  exact ⟨h.stores, h.omits, h.closures_eq, houtput, rfl⟩

end Coupling

namespace Eval

/-- Binding a name in some frame makes no difference to a form in which the symbol does not occur, if
it occurs in no closure either: at every depth the form gives the same value or halts for the same
reason, and prints the same. The stores then differ again in that frame's binding of the name only. -/
theorem evalDepth_ignores_binding (n : ℕ) {name : String} {form : Value}
    (hform : form.Omits name) (scope : Scope) {m : Machine}
    (hm : m.store.All (AllClosures (CodeOmits name))) {target : Scope}
    (htarget : target.inner < m.store.frames.size) (value : Value) {r : Except Halt Value}
    {m₁ : Machine} (hrun : evalDepth n form scope m = (r, m₁)) :
    ∃ m₂, evalDepth n form scope { m with store := m.store.bind target name value } = (r, m₂) ∧
      m₂.output = m₁.output ∧
      m₁.store.DifferAt target.inner name ((m.store.frame target.inner).find? name) (some value)
        m₂.store := by
  let old := (m.store.frame target.inner).find? name
  let c := Coupling.differ target.inner name old (some value)
  have hrelated : c.Related m { m with store := m.store.bind target name value } :=
    ⟨m.store.differAt_bind htarget name value, hm, rfl, rfl, rfl⟩
  have hcouples := Coupling.evals_differ target.inner name old (some value) n m scope form trivial
    hform
  obtain ⟨hresult, hdiffer, -⟩ := hcouples.result_eq rfl hrelated fun h => h.1
  simp only [Coupling.differ, Value.rename_id, Scope.rename_id, hrun] at hresult hdiffer
  exact ⟨_, Prod.ext hresult rfl, hdiffer.output_eq, hdiffer.stores⟩

/-- The name `y` is bound again in the frame into which `(def! z (f 3))` writes, where `f` prints its
argument and gives it in a list. -/
theorem evalDepth_ignores_binding_call :
    ∃ m m₁ m₂ : Machine,
      evalDepth 9 (.list [.symbol "def!", .symbol "z", .list [.symbol "f", .int 3]]) ⟨1, [0]⟩ m =
        (.ok (.list [.int 3]), m₁) ∧
      evalDepth 9 (.list [.symbol "def!", .symbol "z", .list [.symbol "f", .int 3]]) ⟨1, [0]⟩
        { m with store := m.store.bind ⟨1, [0]⟩ "y" (.bool true) } = (.ok (.list [.int 3]), m₂) ∧
      m₁.output = "3\n" ∧ m₂.output = "3\n" ∧
      m₁.store.DifferAt 1 "y" (some .nil) (some (.bool true)) m₂.store := by
  let params : List Value := [.symbol "x"]
  let body : Value := .list [.symbol "do", .list [.symbol "prn", .symbol "x"],
    .list [.symbol "list", .symbol "x"]]
  let form : Value := .list [.symbol "def!", .symbol "z", .list [.symbol "f", .int 3]]
  let root : Frame :=
    [("f", .closure 0 params body ⟨0, []⟩), ("prn", .builtin .print), ("list", .builtin .list)]
  let m : Machine := ⟨(Store.empty.push root).push [("y", .nil)], 1, "", .ofSeed 1⟩
  let m₁ := (evalDepth 9 form ⟨1, [0]⟩ m).2
  have hresult : (evalDepth 9 form ⟨1, [0]⟩ m).1 = .ok (.list [.int 3]) := by
    unfold form m root body params
    cbv
  have houtput : m₁.output = "3\n" := by
    unfold m₁ form m root body params
    cbv
  have hform : form.Omits "y" := by simp [form]
  have hcode : CodeOmits "y" params body := by simp [CodeOmits, params, body]
  have hroot : ∀ b ∈ root, b.2.AllClosures (CodeOmits "y") := by
    simp only [root, List.forall_mem_cons]
    exact ⟨.closure hcode, .atom trivial, .atom trivial, by simp⟩
  have hown : ∀ b ∈ ([("y", .nil)] : Frame), b.2.AllClosures (CodeOmits "y") := by
    simp only [List.forall_mem_cons]
    exact ⟨.atom trivial, by simp⟩
  have hm : m.store.All (AllClosures (CodeOmits "y")) := (Store.All.empty.push hroot).push hown
  have htarget : (⟨1, [0]⟩ : Scope).inner < m.store.frames.size := by decide
  obtain ⟨m₂, hrun, houtput', hdiffer⟩ :=
    evalDepth_ignores_binding 9 hform ⟨1, [0]⟩ hm htarget (.bool true) (Prod.ext hresult rfl)
  exact ⟨m, m₁, m₂, Prod.ext hresult rfl, hrun, houtput, houtput'.trans houtput, hdiffer⟩

end Eval

end MatrixLisp
