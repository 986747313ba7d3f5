import Mathlib.Tactic
import MatrixLisp.Eval.Evaluate
import MatrixLisp.Proofs.Builtin.Results
import MatrixLisp.Proofs.Eval.Rules

/-!
# Evaluation writes to its own frame only

Evaluation in a scope changes no frame that was there before but the innermost one of the scope, and
there only names that a definition in the form binds. Bodies of `let*` and of closures are evaluated
in frames of their own, so that their definitions are seen in no frame from before.
-/
namespace MatrixLisp

/-- Lists that evaluate nothing in the frame around them. -/
def Value.IsSealed (items : List Value) : Prop :=
  ∃ name tail, items = .symbol name :: tail ∧ (name = "quote" ∨ name = "fn*" ∨ name = "let*")

/-- A list `(def! k e)` occurs in a form, outside every `quote`, `fn*` and `let*`. Keys of maps are
not evaluated and do not count. -/
inductive Value.Defines (k : String) : Value → Prop
  | here (e : Value) : Defines k (.list [.symbol "def!", .symbol k, e])
  | list {items : List Value} {v : Value} : ¬IsSealed items → v ∈ items → Defines k v →
      Defines k (.list items)
  | vector {items : List Value} {v : Value} : v ∈ items → Defines k v → Defines k (.vector items)
  | map {entries : List (Value × Value)} {e : Value × Value} : e ∈ entries → Defines k e.2 →
      Defines k (.map entries)

/-- Of the special forms, three seal what they hold. -/
theorem Value.isSealed_cons_iff (special : SpecialForm) (tail : List Value) :
    IsSealed (.symbol special.name :: tail) ↔
      special = .quote ∨ special = .function ∨ special = .bindIn := by
  constructor
  · rintro ⟨name, rest, hitems, hname⟩
    obtain ⟨⟨rfl⟩, rfl⟩ := List.cons.inj hitems
    revert hname
    cases special <;> decide
  · rintro (rfl | rfl | rfl)
    · exact ⟨"quote", tail, rfl, by decide⟩
    · exact ⟨"fn*", tail, rfl, by decide⟩
    · exact ⟨"let*", tail, rfl, by decide⟩

theorem Value.IsSealed.not_defines {items : List Value} (h : IsSealed items) (k : String) :
    ¬Defines k (.list items) := by
  intro hdefines
  generalize hform : Value.list items = form at hdefines
  cases hdefines with
  | here e =>
    cases hform
    obtain ⟨name, tail, hitems, hname⟩ := h
    obtain ⟨⟨rfl⟩, -⟩ := List.cons.inj hitems
    revert hname
    decide
  | list hopen =>
    cases hform
    exact hopen h
  | vector => cases hform
  | map => cases hform

namespace Store

/-- No frame from before has changed. -/
structure Kept (s s' : Store) : Prop where
  size_le : s.frames.size ≤ s'.frames.size
  frame_eq : ∀ id < s.frames.size, s'.frame id = s.frame id

/-- Of the frames from before only one has changed: there no name has lost its binding, and only the
given names can have another one. -/
structure Confined (owner : FrameId) (names : String → Prop) (s s' : Store) : Prop where
  size_le : s.frames.size ≤ s'.frames.size
  frame_eq : ∀ id < s.frames.size, id ≠ owner → s'.frame id = s.frame id
  isSome : ∀ k, ((s.frame owner).find? k).isSome → ((s'.frame owner).find? k).isSome
  find?_eq : ∀ k, ¬names k → (s'.frame owner).find? k = (s.frame owner).find? k

variable {owner : FrameId} {names : String → Prop} {s s' s'' : Store}

theorem Kept.refl (s : Store) : Kept s s := ⟨le_rfl, fun _ _ => rfl⟩

theorem Kept.trans (h : Kept s s') (h' : Kept s' s'') : Kept s s'' where
  size_le := h.size_le.trans h'.size_le
  frame_eq := by
    intro id hid
    rw [h'.frame_eq id (hid.trans_le h.size_le), h.frame_eq id hid]

theorem Confined.refl (owner : FrameId) (names : String → Prop) (s : Store) :
    Confined owner names s s :=
  ⟨le_rfl, fun _ _ _ => rfl, fun _ h => h, fun _ _ => rfl⟩

theorem Confined.trans (h : Confined owner names s s') (h' : Confined owner names s' s'') :
    Confined owner names s s'' where
  size_le := h.size_le.trans h'.size_le
  frame_eq := by
    intro id hid hne
    rw [h'.frame_eq id (hid.trans_le h.size_le) hne, h.frame_eq id hid hne]
  isSome := fun k hk => h'.isSome k (h.isSome k hk)
  find?_eq := fun k hk => (h'.find?_eq k hk).trans (h.find?_eq k hk)

theorem Confined.mono (h : Confined owner names s s') {names' : String → Prop}
    (hnames : ∀ k, names k → names' k) : Confined owner names' s s' :=
  ⟨h.size_le, h.frame_eq, h.isSome, fun k hk => h.find?_eq k fun hk' => hk (hnames k hk')⟩

/-- What changes no frame from before is confined to any of them. -/
theorem Kept.confined (h : Kept s s') (howner : owner < s.frames.size) :
    Confined owner names s s' where
  size_le := h.size_le
  frame_eq := fun id hid _ => h.frame_eq id hid
  isSome := by
    intro k hk
    rw [h.frame_eq owner howner]
    exact hk
  find?_eq := by
    intro k _
    rw [h.frame_eq owner howner]

/-- What is confined to a new frame changes none from before. -/
theorem Confined.kept_of_push {frame : Frame}
    (h : Confined s.frames.size names (s.push frame) s') : Kept s s' where
  size_le := by
    have hsize := h.size_le
    rw [size_push] at hsize
    omega
  frame_eq := by
    intro id hid
    have hlt : id < (s.push frame).frames.size := by
      rw [size_push]
      exact hid.trans (Nat.lt_succ_self _)
    have hne : id ≠ s.frames.size := Nat.ne_of_lt hid
    rw [h.frame_eq id hlt hne, frame_push_of_ne s frame hne]

/-- Binding one of the names in the frame is confined to it. -/
theorem Confined.bind {scope : Scope} (h : Confined scope.inner names s s')
    (hscope : scope.inner < s.frames.size) {name : String} (hname : names name) (value : Value) :
    Confined scope.inner names s (s'.bind scope name value) := by
  refine h.trans ?_
  have hself := frame_bind_self s' name value (hscope.trans_le h.size_le)
  constructor
  · exact (size_bind s' scope name value).ge
  · intro id _ hne
    exact frame_bind_of_ne s' name value hne
  · intro k hk
    rw [hself]
    by_cases hkey : k = name
    · rw [hkey, Frame.find?_bind_self]
      rfl
    · rwa [Frame.find?_bind_of_ne _ value hkey]
  · intro k hk
    have hkey : k ≠ name := by
      rintro rfl
      exact hk hname
    rw [hself, Frame.find?_bind_of_ne _ value hkey]

end Store

namespace Run

open Store

variable {β : Type} {s : Store} {scope : Scope}

/-- What changes no frame from before is confined to the innermost one. -/
theorem keeps_confined_of_kept {x : Run β} (hx : ∀ s, Keeps (Kept s) x) {names : String → Prop}
    (hscope : scope.inner < s.frames.size) : Keeps (Confined scope.inner names s) x := by
  intro m hm
  have hkept := (hx m.store m (Kept.refl _)).2
  exact ⟨Outcome.intro _, hm.trans (hkept.confined (hscope.trans_le hm.size_le))⟩

variable {f : Scope → Run β} (h : ∀ scope s, scope.inner < s.frames.size →
    Keeps (Confined scope.inner (fun _ => True) s) (f scope))

include h

theorem kept_push (frame : Frame) (m : Machine) :
    Kept m.store (f (scope.extend m.store.frames.size)
      { m with store := m.store.push frame }).2.store := by
  have hinner : (scope.extend m.store.frames.size).inner < (m.store.push frame).frames.size := by
    rw [size_push]
    exact Nat.lt_succ_self _
  have hrun := h _ _ hinner { m with store := m.store.push frame } (Confined.refl ..)
  exact hrun.2.kept_of_push

/-- What is confined to the innermost frame changes no frame from before if it is run in a new one. -/
theorem keeps_enter_bind : Keeps (Kept s) (enter scope >>= f) := by
  intro m hm
  exact ⟨Outcome.intro _, hm.trans (kept_push h [] m)⟩

theorem keeps_enterCall_bind (params args : List Value) :
    Keeps (Kept s) (enterCall scope params args >>= f) := by
  intro m hm
  refine ⟨Outcome.intro _, ?_⟩
  cases hframe : Frame.ofParams params args with
  | ok frame =>
    have hcall : enterCall scope params args m =
        (.ok (scope.extend m.store.frames.size), { m with store := m.store.push frame }) := by
      rw [enterCall, nestCall, hframe]
      rfl
    rw [bind_apply_of_ok f hcall]
    exact hm.trans (kept_push h frame m)
  | error e =>
    have hcall : enterCall scope params args m = (.error (.fault e), m) := by
      rw [enterCall, nestCall, hframe]
      rfl
    rw [bind_apply_of_error f hcall]
    exact hm

end Run

namespace Eval

open Run Store Value

/-- Evaluation of a form is confined to the innermost frame and to the names that it defines. -/
def Confines (eval : Evaluator) : Prop :=
  ∀ form scope (m : Machine), scope.inner < m.store.frames.size →
    Confined scope.inner (Defines · form) m.store (eval form scope m).2.store

section

variable {eval : Evaluator} (heval : Confines eval) {scope : Scope} {s : Store}

include heval

/-- A form that defines none but the given names keeps to them. -/
theorem Confines.agree (hscope : scope.inner < s.frames.size) {names : String → Prop} (form : Value)
    (h : ∀ k, Defines k form → names k) :
    Agree (Confined scope.inner names s) (fun _ => True) (fun _ => True) (eval form scope)
      (eval form scope) := by
  intro m hm
  have hstep := heval form scope m (hscope.trans_le hm.size_le)
  exact ⟨rfl, Outcome.intro _, hm.trans (hstep.mono h)⟩

/-- A `let*` changes no frame from before. -/
theorem evalBindIn_keeps (args : List Value) (scope : Scope) :
    Keeps (Kept s) (evalBindIn eval args scope) := by
  unfold evalBindIn
  split
  · split
    · split_ifs
      · apply keeps_enter_bind
        intro inner s hinner
        -- In the frame of a `let*` any name may be bound.
        apply Meets.bind (P := fun _ => True)
        · apply Agree.meets
          apply bindEach_agree (heval.agree hinner) Halt.admitted_true fun _ _ _ _ => trivial
          intro name v s' _ hs'
          exact hs'.bind hinner trivial v
        · intro _ _
          exact (heval.agree hinner _ fun _ _ => trivial).meets
      · exact meets_raise trivial
    · exact meets_raise trivial
  · exact meets_raise trivial

/-- A call changes no frame from before, whatever the body of the function defines. -/
theorem applyWith_keeps (function : Value) (args : List Value) :
    Keeps (Kept s) (applyWith Builtin.call eval function args) := by
  cases function with
  | builtin b => exact (Builtin.call_meets Halt.admitted_true b args).keeps
  | closure _ params body scope =>
    apply keeps_enterCall_bind
    intro inner s hinner
    exact (heval.agree hinner _ fun _ _ => trivial).meets
  | _ => exact meets_raise trivial

theorem evalSpecial_keeps (special : SpecialForm) (tail : List Value)
    (hscope : scope.inner < s.frames.size) :
    Keeps (Confined scope.inner (Defines · (.list (.symbol special.name :: tail))) s)
      (evalSpecial eval special tail scope) := by
  have hsub : ¬IsSealed (.symbol special.name :: tail) → ∀ form ∈ tail, ∀ k, Defines k form →
      Defines k (.list (.symbol special.name :: tail)) := by
    intro hopen form hform k hk
    exact .list hopen (by simp [hform]) hk
  rw [isSealed_cons_iff] at hsub
  have hend := Halt.admitted_true
  cases special with
  | define =>
    apply Agree.meets
    apply evalDefine_agree (heval.agree hscope) hend (hsub (by simp))
    rintro name e v s' rfl - hs'
    exact hs'.bind hscope (.here e) v
  | bindIn => exact keeps_confined_of_kept (fun s => evalBindIn_keeps heval tail scope) hscope
  | sequence => exact (evalSequence_agree (heval.agree hscope) (hsub (by simp)) trivial).meets
  | branch => exact (evalBranch_agree (heval.agree hscope) hend (hsub (by simp)) trivial).meets
  | function => exact evalFunction_meets hend fun _ _ _ _ _ => trivial
  | quote => exact evalQuote_meets hend fun _ _ => trivial

/-- If the evaluation of parts is confined, so is that of the whole. -/
theorem Confines.evalForm : Confines (evalForm Builtin.call eval) := by
  intro form scope m hscope
  suffices hkeeps : Keeps (Confined scope.inner (Defines · form) m.store)
      (Eval.evalForm Builtin.call eval form scope) from (hkeeps m (Confined.refl ..)).2
  unfold Eval.evalForm
  split
  · exact meets_withStore fun s _ => Outcome.intro _
  · exact meets_pure trivial
  · rename_i head tail
    split
    · rename_i special hspecial
      rw [eq_symbol_of_special hspecial]
      exact evalSpecial_keeps heval special tail hscope
    · rename_i hspecial
      have hopen : ¬IsSealed (head :: tail) := by
        rintro ⟨name, rest, hitems, hname⟩
        obtain ⟨rfl, rfl⟩ := List.cons.inj hitems
        rcases hname with rfl | rfl | rfl <;> exact absurd hspecial (by decide)
      have hsub : ∀ form ∈ head :: tail, ∀ k, Defines k form → Defines k (.list (head :: tail)) :=
        fun form hform k hk => .list hopen hform hk
      apply (heval.agree hscope head (hsub head (by simp))).meets.bind
      intro function _
      apply (evalEach_agree (heval.agree hscope)
        fun form hform => hsub form (by simp [hform])).meets.bind
      intro args _
      exact keeps_confined_of_kept (fun s => applyWith_keeps heval function args) hscope
  · apply (evalEach_agree (heval.agree hscope) fun form hform k hk => .vector hform hk).meets.bind
    intro vs _
    exact meets_pure trivial
  · apply Meets.bind (P := fun _ => True)
    · apply Agree.meets
      apply evalEntries_agree (heval.agree hscope)
      · intro e he k hk
        exact .map he hk
      · exact fun _ _ _ _ _ _ => trivial
      · trivial
    · intro d _
      exact meets_pure trivial
  · exact meets_pure trivial

end

theorem confines_evalDepth (n : ℕ) : Confines (evalDepth n) := by
  induction n with
  | zero => exact fun form scope m _ => Confined.refl ..
  | succ n ih => exact ih.evalForm

/-- Evaluation in a scope, however it ends, changes no frame from before but the innermost one; there
no name loses its binding, and only names that a definition in the form binds can have another one.
Applying a function changes no frame from before. -/
theorem evalDepth_writes_own_frame (n : ℕ) :
    (∀ form scope m r m', scope.inner < m.store.frames.size → evalDepth n form scope m = (r, m') →
      (∀ id < m.store.frames.size, id ≠ scope.inner → m'.store.frame id = m.store.frame id) ∧
      (∀ k, ((m.store.frame scope.inner).find? k).isSome →
        ((m'.store.frame scope.inner).find? k).isSome) ∧
      (∀ k, ¬Defines k form →
        (m'.store.frame scope.inner).find? k = (m.store.frame scope.inner).find? k)) ∧
    (∀ function args m r m', applyWith Builtin.call (evalDepth n) function args m = (r, m') →
      ∀ id < m.store.frames.size, m'.store.frame id = m.store.frame id) := by
  have heval := confines_evalDepth n
  constructor
  · intro form scope m r m' hscope hrun
    have h := heval form scope m hscope
    rw [hrun] at h
    exact ⟨h.frame_eq, h.isSome, h.find?_eq⟩
  · intro function args m r m' hrun
    have h := (applyWith_keeps heval function args m (Kept.refl _)).2
    rw [hrun] at h
    exact h.frame_eq

/-- A definition inside `let*` stays local: `(let* [] (def! a 2))` changes neither a frame around the
current one nor `a` in the current one. -/
theorem evalDepth_writes_own_frame_let :
    ∃ m m' : Machine, ∃ r,
      evalDepth 9 (.list [.symbol "let*", .vector [], .list [.symbol "def!", .symbol "a", .int 2]])
        ⟨1, [0]⟩ m = (r, m') ∧
      (m.store.frame 0).find? "a" = some (.int 1) ∧ m'.store.frame 0 = m.store.frame 0 ∧
      (m'.store.frame 1).find? "a" = (m.store.frame 1).find? "a" := by
  let m : Machine := ⟨⟨#[[("a", .int 1)], []]⟩, 0, "", .ofSeed 1⟩
  obtain ⟨r, m', hrun⟩ : ∃ r m', evalDepth 9 (.list [.symbol "let*", .vector [],
      .list [.symbol "def!", .symbol "a", .int 2]]) ⟨1, [0]⟩ m = (r, m') := ⟨_, _, rfl⟩
  obtain ⟨hframes, -, hnames⟩ := (evalDepth_writes_own_frame 9).1 _ _ m r m' (by decide) hrun
  have hsealed : IsSealed [.symbol "let*", .vector [],
      .list [.symbol "def!", .symbol "a", .int 2]] := ⟨"let*", _, rfl, by decide⟩
  exact ⟨m, m', r, hrun, rfl, hframes 0 (by decide) (by decide),
    hnames "a" (hsealed.not_defines "a")⟩

end Eval

end MatrixLisp
