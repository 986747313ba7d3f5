import Mathlib.Tactic
import MatrixLisp.Eval.Evaluate
import MatrixLisp.Proofs.Eval.Invariant
import MatrixLisp.Proofs.Eval.Store
import MatrixLisp.Proofs.Value.Dictionary
import MatrixLisp.Proofs.Value.Renaming

/-!
# Two evaluations side by side

A coupling relates two machines and says how the frames and closures of the first are named in the
second. Two runs are coupled if they lead from related machines to related machines again and give
the same results but for the names. If a coupling is respected by looking up and binding a name, by
adding a frame, by making a closure and by the builtins, then it is respected by evaluation.
-/
namespace MatrixLisp

/-- No frame and no closure is lost. -/
structure Machine.Grows (m m' : Machine) : Prop where
  frames : m.store.frames.size ≤ m'.store.frames.size
  closures : m.closures ≤ m'.closures

theorem Machine.Grows.refl (m : Machine) : m.Grows m := ⟨le_rfl, le_rfl⟩

theorem Machine.Grows.trans {m m' m'' : Machine} (h : m.Grows m') (h' : m'.Grows m'') :
    m.Grows m'' := ⟨h.frames.trans h'.frames, h.closures.trans h'.closures⟩

/-- What two machines have in common, and which forms, values and scopes of the first one the second
has under other names. -/
structure Coupling where
  names : Renaming
  Related : Machine → Machine → Prop
  IsForm : Machine → Value → Prop
  IsValue : Machine → Value → Prop
  IsScope : Machine → Scope → Prop
  /-- Whether the first run may go too deep, with no say about the second. -/
  lenient : Prop

namespace Coupling

open Run Eval Value

variable (c : Coupling) {α β γ δ : Type}

/-- From machines that are related, two runs lead to such again. The second gives what the first
gives, but for a map of the results, and the results of the first are as described. -/
def Couples (m : Machine) (f : α → β) (P : Machine → α → Prop) (x : Run α) (y : Run β) : Prop :=
  ∀ m', c.Related m m' →
    c.lenient ∧ (x m).1 = .error .tooDeep ∨
    m.Grows (x m).2 ∧ c.Related (x m).2 (y m').2 ∧ (y m').1 = (x m).1.map f ∧
      Outcome (P (x m).2) (fun _ => True) (x m).1

variable {c} {m : Machine} {f : α → β} {g : γ → δ} {P : Machine → α → Prop} {Q : Machine → γ → Prop}

theorem Couples.bind {x : Run α} {y : Run β} (h : c.Couples m f P x y) {k : α → Run γ}
    {k' : β → Run δ}
    (hk : ∀ m₁, m.Grows m₁ → ∀ a, P m₁ a → c.Couples m₁ g Q (k a) (k' (f a))) :
    c.Couples m g Q (x >>= k) (y >>= k') := by
  intro m' hm
  rcases h m' hm with ⟨hlenient, hdeep⟩ | ⟨hgrows, hrelated, hsame, hP⟩
  · rw [bind_apply_of_error k (Prod.ext hdeep rfl)]
    exact .inl ⟨hlenient, rfl⟩
  · cases hresult : (x m).1 with
    | error e =>
      rw [hresult] at hsame
      rw [bind_apply_of_error k (Prod.ext hresult rfl), bind_apply_of_error k' (Prod.ext hsame rfl)]
      exact .inr ⟨hgrows, hrelated, rfl, trivial⟩
    | ok a =>
      rw [hresult] at hsame hP
      rw [bind_apply_of_ok k (Prod.ext hresult rfl), bind_apply_of_ok k' (Prod.ext hsame rfl)]
      rcases hk _ hgrows a hP _ hrelated with hdeep | ⟨hgrows', hrest⟩
      · exact .inl hdeep
      · exact .inr ⟨hgrows.trans hgrows', hrest⟩

theorem couples_pure {a : α} (h : P m a) : c.Couples m f P (pure a) (pure (f a)) :=
  fun _ hm => .inr ⟨.refl m, hm, rfl, h⟩

theorem couples_halt (h : Halt) : c.Couples m f P (halt h) (halt h) :=
  fun _ hm => .inr ⟨.refl m, hm, rfl, trivial⟩

theorem couples_raise (fault : Fault) : c.Couples m f P (raise fault) (raise fault) :=
  couples_halt _

/-- What a computation without effects gives is the same on both machines. -/
theorem couples_ofExcept (r : Except Fault α) :
    c.Couples m id (fun _ a => r = .ok a) (ofExcept r) (ofExcept r) := by
  cases r with
  | ok a => exact couples_pure rfl
  | error fault => exact couples_raise fault

/-- What a coupling has to respect besides the builtins. -/
structure Lawful (c : Coupling) : Prop where
  -- What the first machine has is not lost.
  form_mono {m m' v} : m.Grows m' → c.IsForm m v → c.IsForm m' v
  value_mono {m m' v} : m.Grows m' → c.IsValue m v → c.IsValue m' v
  scope_mono {m m' scope} : m.Grows m' → c.IsScope m scope → c.IsScope m' scope
  -- The parts of forms are forms, and the parts of values make values.
  form_items {m v items} : c.IsForm m v → v.items? = some items → ∀ item ∈ items, c.IsForm m item
  form_entries {m entries} : c.IsForm m (.map entries) →
    ∀ e ∈ entries, c.IsForm m e.1 ∧ c.IsForm m e.2
  value_of_form {m v} : c.IsForm m v → c.IsValue m v
  value_of_atom {m v} : v.IsAtom → c.IsValue m v
  value_list {m items} : (∀ v ∈ items, c.IsValue m v) → c.IsValue m (.list items)
  value_vector {m items} : (∀ v ∈ items, c.IsValue m v) → c.IsValue m (.vector items)
  value_map {m entries} : (∀ e ∈ entries, c.IsForm m e.1 ∧ c.IsValue m e.2) →
    c.IsValue m (.map entries)
  value_closure {m id params body scope} : c.IsValue m (.closure id params body scope) →
    (∀ p ∈ params, c.IsForm m p) ∧ c.IsForm m body ∧ c.IsScope m scope
  -- Names, frames and closures correspond.
  find? {m m' scope name} : c.Related m m' → c.IsScope m scope → c.IsForm m (.symbol name) →
    m'.store.find? (scope.rename c.names) name =
        (m.store.find? scope name).map (rename c.names) ∧
      ∀ v, m.store.find? scope name = some v → c.IsValue m v
  related_bind {m m' scope name value} : c.Related m m' → c.IsScope m scope →
    c.IsForm m (.symbol name) → c.IsValue m value →
    c.Related { m with store := m.store.bind scope name value }
      { m' with
        store := m'.store.bind (scope.rename c.names) name (value.rename c.names) }
  related_push {m m' scope frame} : c.Related m m' → c.IsScope m scope →
    (∀ b ∈ frame, c.IsForm m (.symbol b.1) ∧ c.IsValue m b.2) →
    c.Related { m with store := m.store.push frame }
        { m' with store := m'.store.push (frame.rename c.names) } ∧
      c.names.frame m.store.frames.size = m'.store.frames.size ∧
      c.IsScope { m with store := m.store.push frame } (scope.extend m.store.frames.size)
  related_closure {m m' params body scope} : c.Related m m' → (∀ p ∈ params, c.IsForm m p) →
    c.IsForm m body → c.IsScope m scope →
    c.Related { m with closures := m.closures + 1 } { m' with closures := m'.closures + 1 } ∧
      c.names.closure m.closures = m'.closures ∧
      c.IsValue { m with closures := m.closures + 1 } (.closure m.closures params body scope)

/-- The builtins respect a coupling. -/
def Calls (c : Coupling) (call call' : Caller) : Prop :=
  ∀ m b args, (∀ a ∈ args, c.IsValue m a) →
    c.Couples m (rename c.names) c.IsValue (call b args)
      (call' b (args.map (rename c.names)))

/-- Two evaluations respect a coupling. -/
def Evals (c : Coupling) (eval eval' : Evaluator) : Prop :=
  ∀ m scope form, c.IsScope m scope → c.IsForm m form →
    c.Couples m (rename c.names) c.IsValue (eval form scope)
      (eval' (form.rename c.names) (scope.rename c.names))

namespace Lawful

variable (hc : c.Lawful) {scope : Scope}

include hc

theorem couples_lookup (hscope : c.IsScope m scope) {name : String}
    (hname : c.IsForm m (.symbol name)) :
    c.Couples m (rename c.names) c.IsValue (withStore (·.lookup scope name))
      (withStore (·.lookup (scope.rename c.names) name)) := by
  intro m' hm
  obtain ⟨hsame, hvalue⟩ := hc.find? hm hscope hname
  simp only [withStore, Store.lookup, hsame]
  cases hfind : m.store.find? scope name with
  | some v => exact couples_pure (hvalue v hfind) m' hm
  | none => exact couples_raise _ m' hm

theorem couples_bindName (hscope : c.IsScope m scope) {name : String}
    (hname : c.IsForm m (.symbol name)) {value : Value} (hvalue : c.IsValue m value) :
    c.Couples m id (fun _ _ => True) (bindName scope name value)
      (bindName (scope.rename c.names) name (value.rename c.names)) := by
  intro m' hm
  refine .inr ⟨⟨?_, le_rfl⟩, hc.related_bind hm hscope hname hvalue, rfl, trivial⟩
  exact (Store.size_bind ..).ge

/-- A frame is added inside a scope. -/
theorem couples_nest (hscope : c.IsScope m scope) {frame : Frame}
    (hframe : ∀ b ∈ frame, c.IsForm m (.symbol b.1) ∧ c.IsValue m b.2) :
    c.Couples m (Scope.rename c.names) c.IsScope
      (fun m => (.ok (scope.extend m.store.frames.size), { m with store := m.store.push frame }))
      (fun m => (.ok ((scope.rename c.names).extend m.store.frames.size),
        { m with store := m.store.push (frame.rename c.names) })) := by
  intro m' hm
  obtain ⟨hrelated, hsize, hinner⟩ := hc.related_push hm hscope hframe
  refine .inr ⟨⟨?_, le_rfl⟩, hrelated, ?_, hinner⟩
  · exact (Store.size_push m.store frame).ge.trans' (Nat.le_succ _)
  · exact congrArg Except.ok (hsize ▸ (Scope.rename_extend ..).symm)

theorem couples_enter (hscope : c.IsScope m scope) :
    c.Couples m (Scope.rename c.names) c.IsScope (enter scope) (enter (scope.rename c.names)) := by
  have hempty : ∀ b ∈ ([] : Frame), c.IsForm m (.symbol b.1) ∧ c.IsValue m b.2 := by simp
  exact hc.couples_nest hscope hempty

theorem couples_enterCall (hscope : c.IsScope m scope) {params args : List Value}
    (hparams : ∀ p ∈ params, c.IsForm m p) (hargs : ∀ a ∈ args, c.IsValue m a) :
    c.Couples m (Scope.rename c.names) c.IsScope (enterCall scope params args)
      (enterCall (scope.rename c.names) (params.map (rename c.names))
        (args.map (rename c.names))) := by
  intro m' hm
  simp only [enterCall, Store.nestCall, Frame.ofParams_rename]
  cases hframe : Frame.ofParams params args with
  | error fault => exact .inr ⟨.refl m, hm, rfl, trivial⟩
  | ok frame =>
    have hbindings : ∀ b ∈ frame, c.IsForm m (.symbol b.1) ∧ c.IsValue m b.2 :=
      Frame.forall_ofParams (P := fun name v => c.IsForm m (.symbol name) ∧ c.IsValue m v) hframe
        fun name hname a ha => ⟨hparams _ hname, hargs a ha⟩
    exact hc.couples_nest hscope hbindings m' hm

theorem couples_makeClosure (hscope : c.IsScope m scope) {params : List Value} {body : Value}
    (hparams : ∀ p ∈ params, c.IsForm m p) (hbody : c.IsForm m body) :
    c.Couples m (rename c.names) c.IsValue (makeClosure params body scope)
      (makeClosure (params.map (rename c.names)) (body.rename c.names)
        (scope.rename c.names)) := by
  intro m' hm
  obtain ⟨hrelated, hid, hclosure⟩ := hc.related_closure hm hparams hbody hscope
  refine .inr ⟨⟨le_rfl, Nat.le_succ _⟩, hrelated, ?_, hclosure⟩
  rw [makeClosure, makeClosure, ← hid]
  exact congrArg Except.ok (rename_closure ..).symm

end Lawful

section

variable {ρ : Renaming}

@[simp] theorem nameOf_rename (special : SpecialForm) (key : Value) :
    nameOf special (key.rename ρ) = nameOf special key := by
  simp [nameOf]

@[simp] theorem checkParams_rename (params : List Value) :
    checkParams (params.map (rename ρ)) = checkParams params := by
  induction params with
  | nil => rfl
  | cons p rest ih => rw [List.map_cons, checkParams, nameOf_rename, ih, checkParams]

end

section

variable (hc : c.Lawful) {eval eval' : Evaluator} (heval : c.Evals eval eval') {scope : Scope}
  (hscope : c.IsScope m scope)

include hc heval hscope

theorem evalEach_couples {forms : List Value} (h : ∀ form ∈ forms, c.IsForm m form) :
    c.Couples m (List.map (rename c.names)) (fun m vs => ∀ v ∈ vs, c.IsValue m v)
      (evalEach eval scope forms)
      (evalEach eval' (scope.rename c.names) (forms.map (rename c.names))) := by
  induction forms generalizing m with
  | nil => exact couples_pure (by simp)
  | cons form rest ih =>
    apply (heval m scope form hscope (h form (by simp))).bind
    intro m₁ hm₁ v hv
    apply (ih (hc.scope_mono hm₁ hscope) fun form hform =>
      hc.form_mono hm₁ (h form (by simp [hform]))).bind
    intro m₂ hm₂ vs hvs
    apply couples_pure (f := List.map (rename c.names))
    intro w hw
    rcases List.mem_cons.mp hw with rfl | hw
    · exact hc.value_mono hm₂ hv
    · exact hvs w hw

theorem evalEntries_couples {entries d : Dict}
    (h : ∀ e ∈ entries, c.IsForm m e.1 ∧ c.IsForm m e.2)
    (hd : ∀ e ∈ d, c.IsForm m e.1 ∧ c.IsValue m e.2) :
    c.Couples m (Dict.rename c.names) (fun m d => ∀ e ∈ d, c.IsForm m e.1 ∧ c.IsValue m e.2)
      (evalEntries eval scope entries d)
      (evalEntries eval' (scope.rename c.names) (entries.rename c.names) (d.rename c.names)) := by
  induction entries generalizing m d with
  | nil => exact couples_pure hd
  | cons e rest ih =>
    apply (heval m scope e.2 hscope (h e (by simp)).2).bind
    intro m₁ hm₁ v hv
    rw [Dict.insert_rename]
    apply ih (hc.scope_mono hm₁ hscope)
    · intro e he
      obtain ⟨hkey, hform⟩ := h e (by simp [he])
      exact ⟨hc.form_mono hm₁ hkey, hc.form_mono hm₁ hform⟩
    · refine Dict.forall_insert (fun e he => ?_) (hc.form_mono hm₁ (h e (by simp)).1) hv
      exact ⟨hc.form_mono hm₁ (hd e he).1, hc.value_mono hm₁ (hd e he).2⟩

theorem evalSequence_couples {forms : List Value} (h : ∀ form ∈ forms, c.IsForm m form)
    {last : Value} (hlast : c.IsValue m last) :
    c.Couples m (rename c.names) c.IsValue (evalSequence eval scope forms last)
      (evalSequence eval' (scope.rename c.names) (forms.map (rename c.names))
        (last.rename c.names)) := by
  induction forms generalizing m last with
  | nil => exact couples_pure hlast
  | cons form rest ih =>
    apply (heval m scope form hscope (h form (by simp))).bind
    intro m₁ hm₁ v hv
    have hrest : ∀ form ∈ rest, c.IsForm m₁ form :=
      fun form hform => hc.form_mono hm₁ (h form (by simp [hform]))
    exact ih (hc.scope_mono hm₁ hscope) hrest hv

/-- A name is bound to the value of a form. -/
theorem bindForm_couples (special : SpecialForm) {key form : Value} (hkey : c.IsForm m key)
    (hform : c.IsForm m form) {k k' : Value → Run α} {g : α → α} {Q : Machine → α → Prop}
    (hk : ∀ m₁, m.Grows m₁ → ∀ v, c.IsValue m₁ v → c.Couples m₁ g Q (k v) (k' (v.rename c.names))) :
    c.Couples m g Q
      (do
        let name ← Run.ofExcept (nameOf special key)
        let v ← eval form scope
        Run.bindName scope name v
        k v)
      (do
        let name ← Run.ofExcept (nameOf special (key.rename c.names))
        let v ← eval' (form.rename c.names) (scope.rename c.names)
        Run.bindName (scope.rename c.names) name v
        k' v) := by
  rw [nameOf_rename]
  apply (couples_ofExcept (nameOf special key)).bind
  intro m₁ hm₁ name hname
  have hsymbol : key = .symbol name := by
    cases key <;> cases hname
    rfl
  subst hsymbol
  apply (heval m₁ scope form (hc.scope_mono hm₁ hscope) (hc.form_mono hm₁ hform)).bind
  intro m₂ hm₂ v hv
  have hm := hm₁.trans hm₂
  apply (hc.couples_bindName (hc.scope_mono hm hscope) (hc.form_mono hm hkey) hv).bind
  intro m₃ hm₃ _ _
  exact hk m₃ (hm.trans hm₃) v (hc.value_mono hm₃ hv)

theorem bindEach_couples {bindings : Dict}
    (h : ∀ b ∈ bindings, c.IsForm m b.1 ∧ c.IsForm m b.2) :
    c.Couples m id (fun _ _ => True) (bindEach eval scope bindings)
      (bindEach eval' (scope.rename c.names) (bindings.rename c.names)) := by
  induction bindings generalizing m with
  | nil => exact couples_pure trivial
  | cons b rest ih =>
    obtain ⟨hkey, hform⟩ := h b (by simp)
    apply bindForm_couples hc heval hscope .bindIn hkey hform
    intro m₁ hm₁ v _
    apply ih (hc.scope_mono hm₁ hscope)
    intro b hb
    obtain ⟨hkey, hform⟩ := h b (by simp [hb])
    exact ⟨hc.form_mono hm₁ hkey, hc.form_mono hm₁ hform⟩

variable {args : List Value} (hargs : ∀ form ∈ args, c.IsForm m form)

include hargs

theorem evalDefine_couples :
    c.Couples m (rename c.names) c.IsValue (evalDefine eval args scope)
      (evalDefine eval' (args.map (rename c.names)) (scope.rename c.names)) := by
  rcases args with _ | ⟨key, _ | ⟨form, _ | ⟨extra, rest⟩⟩⟩
  · exact couples_raise _
  · exact couples_raise _
  · apply bindForm_couples hc heval hscope .define (hargs key (by simp)) (hargs form (by simp))
    intro m₁ _ v hv
    exact couples_pure hv
  · simp only [evalDefine, List.map_cons, List.length_cons, List.length_map]
    exact couples_raise _

theorem evalBindIn_couples :
    c.Couples m (rename c.names) c.IsValue (evalBindIn eval args scope)
      (evalBindIn eval' (args.map (rename c.names)) (scope.rename c.names)) := by
  rcases args with _ | ⟨bindings, _ | ⟨body, _ | ⟨extra, rest⟩⟩⟩
  · exact couples_raise _
  · exact couples_raise _
  · simp only [evalBindIn, List.map_cons, List.map_nil, items?_rename, typeName_rename]
    cases hforms : bindings.items? with
    | none => exact couples_raise _
    | some forms =>
      have hpairs := Dict.forall_pairs (hc.form_items (hargs bindings (by simp)) hforms)
      simp only [Option.map_some, List.length_map]
      split_ifs
      · apply (hc.couples_enter hscope).bind
        intro m₁ hm₁ inner hinner
        rw [Dict.pairs_rename]
        apply (bindEach_couples hc heval hinner fun b hb =>
          ⟨hc.form_mono hm₁ (hpairs b hb).1, hc.form_mono hm₁ (hpairs b hb).2⟩).bind
        intro m₂ hm₂ _ _
        exact heval m₂ inner body (hc.scope_mono hm₂ hinner)
          (hc.form_mono (hm₁.trans hm₂) (hargs body (by simp)))
      · exact couples_raise _
  · simp only [evalBindIn, List.map_cons, List.length_cons, List.length_map]
    exact couples_raise _

theorem evalBranch_couples :
    c.Couples m (rename c.names) c.IsValue (evalBranch eval args scope)
      (evalBranch eval' (args.map (rename c.names)) (scope.rename c.names)) := by
  have hbranch : ∀ m₁, m.Grows m₁ → ∀ form ∈ args, c.Couples m₁ (rename c.names) c.IsValue
      (eval form scope) (eval' (form.rename c.names) (scope.rename c.names)) :=
    fun m₁ hm₁ form hform =>
      heval m₁ scope form (hc.scope_mono hm₁ hscope) (hc.form_mono hm₁ (hargs form hform))
  rcases args with _ | ⟨condition, _ | ⟨yes, _ | ⟨no, _ | ⟨extra, rest⟩⟩⟩⟩
  · exact couples_raise _
  · exact couples_raise _
  · apply (hbranch m (.refl m) condition (by simp)).bind
    intro m₁ hm₁ v _
    rw [isTruthy_rename]
    split_ifs
    · exact hbranch m₁ hm₁ yes (by simp)
    · exact couples_pure (a := Value.nil) (hc.value_of_atom trivial)
  · apply (hbranch m (.refl m) condition (by simp)).bind
    intro m₁ hm₁ v _
    rw [isTruthy_rename]
    split_ifs
    · exact hbranch m₁ hm₁ yes (by simp)
    · exact hbranch m₁ hm₁ no (by simp)
  · simp only [evalBranch, List.map_cons, List.length_cons, List.length_map]
    exact couples_raise _

omit heval in
theorem evalFunction_couples :
    c.Couples m (rename c.names) c.IsValue (evalFunction args scope)
      (evalFunction (args.map (rename c.names)) (scope.rename c.names)) := by
  rcases args with _ | ⟨params, _ | ⟨body, _ | ⟨extra, rest⟩⟩⟩
  · exact couples_raise _
  · exact couples_raise _
  · simp only [evalFunction, List.map_cons, List.map_nil, items?_rename, typeName_rename]
    cases hitems : params.items? with
    | none => exact couples_raise _
    | some items =>
      simp only [Option.map_some, checkParams_rename]
      apply (couples_ofExcept (checkParams items)).bind
      intro m₁ hm₁ _ _
      apply hc.couples_makeClosure (hc.scope_mono hm₁ hscope)
      · intro p hp
        exact hc.form_mono hm₁ (hc.form_items (hargs params (by simp)) hitems p hp)
      · exact hc.form_mono hm₁ (hargs body (by simp))
  · simp only [evalFunction, List.map_cons, List.length_cons, List.length_map]
    exact couples_raise _

omit heval hscope in
theorem evalQuote_couples :
    c.Couples m (rename c.names) c.IsValue (evalQuote args)
      (evalQuote (args.map (rename c.names))) := by
  rcases args with _ | ⟨form, _ | ⟨extra, rest⟩⟩
  · exact couples_raise _
  · exact couples_pure (hc.value_of_form (hargs form (by simp)))
  · simp only [evalQuote, List.map_cons, List.length_cons, List.length_map]
    exact couples_raise _

theorem evalSpecial_couples (special : SpecialForm) :
    c.Couples m (rename c.names) c.IsValue (evalSpecial eval special args scope)
      (evalSpecial eval' special (args.map (rename c.names)) (scope.rename c.names)) := by
  cases special with
  | define => exact evalDefine_couples hc heval hscope hargs
  | bindIn => exact evalBindIn_couples hc heval hscope hargs
  | sequence =>
    have hnil : c.IsValue m .nil := hc.value_of_atom trivial
    exact evalSequence_couples hc heval hscope hargs hnil
  | branch => exact evalBranch_couples hc heval hscope hargs
  | function => exact evalFunction_couples hc hscope hargs
  | quote => exact evalQuote_couples hc hargs

end

section

variable (hc : c.Lawful) {eval eval' : Evaluator} (heval : c.Evals eval eval')

include hc heval

theorem callClosure_couples {id : ℕ} {params : List Value} {body : Value} {scope : Scope}
    (hclosure : c.IsValue m (.closure id params body scope)) {args : List Value}
    (hargs : ∀ a ∈ args, c.IsValue m a) :
    c.Couples m (rename c.names) c.IsValue (callClosure eval params body scope args)
      (callClosure eval' (params.map (rename c.names)) (body.rename c.names)
        (scope.rename c.names) (args.map (rename c.names))) := by
  obtain ⟨hparams, hbody, hscope⟩ := hc.value_closure hclosure
  apply (hc.couples_enterCall hscope hparams hargs).bind
  intro m₁ hm₁ inner hinner
  exact heval m₁ inner body hinner (hc.form_mono hm₁ hbody)

variable {call call' : Caller} (hcall : c.Calls call call')

include hcall

theorem applyWith_couples {function : Value} (hfunction : c.IsValue m function)
    {args : List Value} (hargs : ∀ a ∈ args, c.IsValue m a) :
    c.Couples m (rename c.names) c.IsValue (applyWith call eval function args)
      (applyWith call' eval' (function.rename c.names) (args.map (rename c.names))) := by
  have hother : ∀ v : Value, c.Couples m (rename c.names) c.IsValue
      (raise (.notFunction v.render)) (raise (.notFunction (v.rename c.names).render)) := by
    intro v
    rw [render_rename]
    exact couples_raise _
  cases function with
  | builtin b => exact hcall m b args hargs
  | closure id params body scope =>
    rw [rename_closure]
    exact callClosure_couples hc heval hfunction hargs
  | _ => exact hother _

/-- What the evaluation of parts respects, that of the whole does. -/
theorem Evals.evalForm : c.Evals (evalForm call eval) (evalForm call' eval') := by
  intro m scope form hscope hform
  cases form with
  | symbol name => exact hc.couples_lookup hscope hform
  | list items =>
    rw [rename_list]
    cases items with
    | nil => exact couples_pure (a := Value.list []) (hc.value_of_form hform)
    | cons head tail =>
      have hitems := hc.form_items hform rfl
      have htail : ∀ form ∈ tail, c.IsForm m form := fun form h => hitems form (by simp [h])
      simp only [Eval.evalForm, List.map_cons, symbol?_rename]
      cases head.symbol?.bind SpecialForm.ofName? with
      | some special => exact evalSpecial_couples hc heval hscope htail special
      | none =>
        apply (heval m scope head hscope (hitems head (by simp))).bind
        intro m₁ hm₁ function hfunction
        apply (evalEach_couples hc heval (hc.scope_mono hm₁ hscope) fun form h =>
          hc.form_mono hm₁ (htail form h)).bind
        intro m₂ hm₂ args hargs
        exact applyWith_couples hc heval hcall (hc.value_mono hm₂ hfunction) hargs
  | vector items =>
    rw [rename_vector]
    apply (evalEach_couples hc heval hscope (hc.form_items hform rfl)).bind
    intro m₁ _ vs hvs
    rw [← rename_vector]
    exact couples_pure (hc.value_vector hvs)
  | map entries =>
    rw [rename_map]
    apply (evalEntries_couples hc heval hscope (d := []) (hc.form_entries hform) (by simp)).bind
    intro m₁ _ d hd
    rw [← rename_map]
    exact couples_pure (hc.value_map hd)
  | _ => exact couples_pure (f := rename c.names) (hc.value_of_form hform)

end

/-- Evaluation respects a coupling that the builtins respect. If the first evaluation may go too
deep, the second may go deeper. -/
theorem evals_evalDepthWith (hc : c.Lawful) {call call' : Caller} (hcall : c.Calls call call')
    {n k : ℕ} (h : n = k ∨ c.lenient ∧ n ≤ k) :
    c.Evals (evalDepthWith call n) (evalDepthWith call' k) := by
  induction n generalizing k with
  | zero =>
    intro m scope form _ _
    rcases h with rfl | ⟨hlenient, -⟩
    · exact couples_halt .tooDeep
    · exact fun _ _ => .inl ⟨hlenient, rfl⟩
  | succ n ih =>
    cases k with
    | zero => omega
    | succ k =>
      have hless : n = k ∨ c.lenient ∧ n ≤ k :=
        h.imp Nat.succ.inj (And.imp_right Nat.le_of_succ_le_succ)
      exact Evals.evalForm hc (ih hless) hcall

end Coupling

end MatrixLisp
