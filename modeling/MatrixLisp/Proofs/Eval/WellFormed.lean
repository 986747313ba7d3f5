import Mathlib.Tactic
import MatrixLisp.Eval.Evaluate
import MatrixLisp.Proofs.Builtin.Results
import MatrixLisp.Proofs.Eval.Rules

/-!
# Evaluation of well-formed forms

On a store of well-formed values, evaluation makes well-formed values of well-formed forms. This is
shown for two evaluations at once, which may differ in what the builtins do with arguments, or on a
store, that are not well-formed: since they agree, no builtin is ever called so.
-/
namespace MatrixLisp

namespace Run

/-- A new empty frame binds nothing that is not well-formed. -/
theorem meets_enter {E : Halt → Prop} (scope : Scope) :
    Meets Store.WellFormed (fun _ => True) E (enter scope) := by
  intro m hm
  have hempty : Frame.WellFormed [] := by simp [Frame.WellFormed]
  exact ⟨trivial, hm.push hempty⟩

/-- The frame of a call with symbols as parameters can fail by the number of arguments only. -/
theorem meets_enterCall (scope : Scope) {params args : List Value}
    (hparams : ∀ p ∈ params, ∃ name, p = Value.symbol name) (hargs : ∀ a ∈ args, a.WellFormed) :
    Meets Store.WellFormed (fun _ => True) Halt.Ordinary (enterCall scope params args) := by
  intro m hm
  rw [enterCall, Store.nestCall]
  obtain ⟨frame, hframe, hwf⟩ | harity := Frame.ofParams_of_symbols hparams args
  · rw [hframe]
    exact ⟨trivial, hm.push (hwf hargs)⟩
  · rw [harity]
    exact ⟨nofun, hm⟩

end Run

namespace Eval

open Run

/-- Two evaluations are the same on well-formed forms and stores, and lead to such again. -/
def Sound (eval eval' : Evaluator) : Prop :=
  ∀ scope form, form.WellFormed →
    Agree Store.WellFormed Value.WellFormed Halt.Ordinary (eval form scope) (eval' form scope)

/-- Builtins that do what those of the language do with well-formed arguments on a well-formed
store. -/
def Conforms (call : Caller) : Prop :=
  ∀ b args (m : Machine), (∀ a ∈ args, a.WellFormed) → m.store.WellFormed →
    call b args m = Builtin.call b args m

section

variable {eval eval' : Evaluator} (heval : Sound eval eval')

include heval

theorem evalBindIn_agree (scope : Scope) {args : List Value} (h : ∀ a ∈ args, a.WellFormed) :
    Agree Store.WellFormed Value.WellFormed Halt.Ordinary
      (evalBindIn eval args scope) (evalBindIn eval' args scope) := by
  unfold evalBindIn
  split
  · rename_i bindings body
    split
    · rename_i forms hforms
      split_ifs
      · have hpairs := Dict.forall_pairs ((h bindings (by simp)).items hforms)
        apply (meets_enter scope).agree.bind
        intro inner _
        apply (bindEach_agree (heval inner) Halt.admitted_ordinary (fun b hb => (hpairs b hb).2)
          fun name v s hv hs => hs.bind inner name hv).bind
        intro _ _
        exact heval inner body (h body (by simp))
      · exact (meets_raise nofun).agree
    · exact (meets_raise nofun).agree
  · exact (meets_raise nofun).agree

theorem evalSpecial_agree (special : SpecialForm) (scope : Scope) {args : List Value}
    (h : ∀ a ∈ args, a.WellFormed) :
    Agree Store.WellFormed Value.WellFormed Halt.Ordinary
      (evalSpecial eval special args scope) (evalSpecial eval' special args scope) := by
  have hordinary := Halt.admitted_ordinary
  cases special with
  | define =>
    exact evalDefine_agree (heval scope) hordinary h fun name _ v s _ hv hs => hs.bind scope name hv
  | bindIn => exact evalBindIn_agree heval scope h
  | sequence => exact evalSequence_agree (heval scope) h .nil
  | branch => exact evalBranch_agree (heval scope) hordinary h .nil
  | function =>
    apply Meets.agree
    apply evalFunction_meets hordinary
    intro params body id hbody hparams
    exact .closure id scope hparams (h body hbody)
  | quote => exact (evalQuote_meets hordinary h).agree

/-- A map that is built again from well-formed entries stays without repeated keys. -/
theorem evalMap_agree (scope : Scope) {entries : List (Value × Value)}
    (hkeys : ∀ e ∈ entries, e.1.WellFormed) (hvalues : ∀ e ∈ entries, e.2.WellFormed) :
    Agree Store.WellFormed (fun d => Value.WellFormed (.map d)) Halt.Ordinary
      (evalEntries eval scope entries []) (evalEntries eval' scope entries []) := by
  apply evalEntries_agree (heval scope) hvalues
  · intro e he d v hd hv
    cases hd with
    | map hdistinct hdkeys hdvalues =>
      have hinsert := Dict.forall_insert (fun e he => ⟨hdkeys e he, hdvalues e he⟩) (hkeys e he) hv
      exact .map (hdistinct.insert e.1 v) (fun e he => (hinsert e he).1) fun e he => (hinsert e he).2
  · exact .map List.Pairwise.nil (by simp) (by simp)

variable {call : Caller} (hcall : Conforms call)

include hcall

theorem applyWith_agree {function : Value} (hfunction : function.WellFormed) {args : List Value}
    (hargs : ∀ a ∈ args, a.WellFormed) :
    Agree Store.WellFormed Value.WellFormed Halt.Ordinary
      (applyWith Builtin.call eval function args) (applyWith call eval' function args) := by
  cases hfunction with
  | builtin b =>
    intro m hm
    obtain ⟨hresult, hstore⟩ := Builtin.call_meets Halt.admitted_ordinary b args m hm
    exact ⟨hcall b args m hargs hm, hresult.mono fun v hv => hv hargs, hstore⟩
  | closure id scope hparams hbody =>
    apply (meets_enterCall scope hparams hargs).agree.bind
    intro inner _
    exact heval inner _ hbody
  | _ => exact (meets_raise nofun).agree

/-- If the evaluations of parts are sound, so are those of the whole. -/
theorem Sound.evalForm : Sound (evalForm Builtin.call eval) (evalForm call eval') := by
  intro scope form hform
  cases hform with
  | symbol name =>
    apply Meets.agree
    apply meets_withStore
    intro s hs
    unfold Store.lookup
    split
    · rename_i hfind
      exact hs.find? hfind
    · exact nofun
  | @list items hitems =>
    cases items with
    | nil => exact (meets_pure (.list hitems)).agree
    | cons head tail =>
      have htail : ∀ form ∈ tail, form.WellFormed := fun form hform => hitems form (by simp [hform])
      unfold Eval.evalForm
      dsimp only
      split
      · exact evalSpecial_agree heval _ scope htail
      · apply (heval scope head (hitems head (by simp))).bind
        intro function hfunction
        apply (evalEach_agree (heval scope) htail).bind
        intro args hargs
        exact applyWith_agree heval hcall hfunction hargs
  | vector hitems =>
    apply (evalEach_agree (heval scope) hitems).bind
    intro vs hvs
    exact (meets_pure (.vector hvs)).agree
  | map _ hkeys hvalues =>
    apply (evalMap_agree heval scope hkeys hvalues).bind
    intro d hd
    exact (meets_pure hd).agree
  | number h => exact (meets_pure (.number h)).agree
  | bool b => exact (meets_pure (.bool b)).agree
  | nil => exact (meets_pure .nil).agree
  | builtin b => exact (meets_pure (.builtin b)).agree
  | closure id scope hparams hbody => exact (meets_pure (.closure id scope hparams hbody)).agree
  | numVector v => exact (meets_pure (.numVector v)).agree
  | matrix h => exact (meets_pure (.matrix h)).agree

end

theorem sound_evalDepth {call : Caller} (hcall : Conforms call) (n : ℕ) :
    Sound (evalDepth n) (evalDepthWith call n) := by
  induction n with
  | zero =>
    intro scope form _
    exact (meets_halt nofun).agree
  | succ n ih => exact ih.evalForm hcall

end Eval

end MatrixLisp
