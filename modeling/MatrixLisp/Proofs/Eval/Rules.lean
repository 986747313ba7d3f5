import Mathlib.Tactic
import MatrixLisp.Eval.Rules
import MatrixLisp.Proofs.Eval.Invariant

/-!
# The rules of evaluation under an invariant

Suppose that two evaluations agree on some forms, in one scope, and keep an invariant of the store
there. Then so do the rules that evaluate only such forms in that scope. What a rule asks for besides
is that its own bindings keep the invariant.
-/
namespace MatrixLisp.Eval

open Run

/-- A special form is headed by its name. -/
theorem eq_symbol_of_special {head : Value} {special : SpecialForm}
    (h : head.symbol?.bind SpecialForm.ofName? = some special) : head = .symbol special.name := by
  obtain ⟨name, hhead, hname⟩ := Option.bind_eq_some_iff.mp h
  rw [SpecialForm.ofName?_eq_some_iff.mp hname]
  cases head <;> cases hhead
  rfl

theorem nameOf_gives (form : SpecialForm) (key : Value) :
    Gives (fun name => key = .symbol name) (nameOf form key) := by
  cases key with
  | symbol name => rfl
  | _ => exact nofun

theorem checkParams_gives (params : List Value) :
    Gives (fun _ => ∀ p ∈ params, ∃ name, p = Value.symbol name) (checkParams params) := by
  induction params with
  | nil => simp [checkParams]
  | cons p rest ih =>
    apply (nameOf_gives .function p).bind
    intro name hname
    apply ih.mono
    intro _ hrest q hq
    rcases List.mem_cons.mp hq with rfl | hq
    · exact ⟨name, hname⟩
    · exact hrest q hq

variable {I : Store → Prop} {F P : Value → Prop} {E : Halt → Prop} {scope : Scope}
  {args : List Value}

theorem evalFunction_meets (hE : Halt.Admitted E)
    (h : ∀ params body id, body ∈ args → (∀ p ∈ params, ∃ name, p = Value.symbol name) →
      P (.closure id params body scope)) : Meets I P E (evalFunction args scope) := by
  unfold evalFunction
  split
  · rename_i body
    split
    · rename_i params _
      apply (meets_ofExcept_of_gives hE (checkParams_gives params)).bind
      intro _ hparams
      exact meets_makeClosure fun id => h params body id (by simp) hparams
    · exact meets_raise (hE.fault _ nofun)
  · exact meets_raise (hE.fault _ nofun)

theorem evalQuote_meets (hE : Halt.Admitted E) (h : ∀ form ∈ args, P form) :
    Meets I P E (evalQuote args) := by
  unfold evalQuote
  split
  · exact meets_pure (h _ (by simp))
  · exact meets_raise (hE.fault _ nofun)

variable {eval eval' : Evaluator}
  (heval : ∀ form, F form → Agree I P E (eval form scope) (eval' form scope))

include heval

theorem evalEach_agree {forms : List Value} (h : ∀ form ∈ forms, F form) :
    Agree I (fun vs => ∀ v ∈ vs, P v) E (evalEach eval scope forms) (evalEach eval' scope forms) := by
  induction forms with
  | nil => exact (meets_pure (by simp)).agree
  | cons form rest ih =>
    apply (heval form (h form (by simp))).bind
    intro v hv
    apply (ih fun form hform => h form (by simp [hform])).bind
    intro vs hvs
    apply (meets_pure _).agree
    intro w hw
    rcases List.mem_cons.mp hw with rfl | hw
    · exact hv
    · exact hvs w hw

theorem evalEntries_agree {K : Dict → Prop} {entries : List (Value × Value)}
    (h : ∀ e ∈ entries, F e.2)
    (hinsert : ∀ e ∈ entries, ∀ d v, K d → P v → K (d.insert e.1 v)) {d : Dict} (hd : K d) :
    Agree I K E (evalEntries eval scope entries d) (evalEntries eval' scope entries d) := by
  induction entries generalizing d with
  | nil => exact (meets_pure hd).agree
  | cons e rest ih =>
    apply (heval e.2 (h e (by simp))).bind
    intro v hv
    exact ih (fun e he => h e (by simp [he])) (fun e he => hinsert e (by simp [he]))
      (hinsert e (by simp) d v hd hv)

theorem evalSequence_agree {forms : List Value} (h : ∀ form ∈ forms, F form) {last : Value}
    (hlast : P last) :
    Agree I P E (evalSequence eval scope forms last) (evalSequence eval' scope forms last) := by
  induction forms generalizing last with
  | nil => exact (meets_pure hlast).agree
  | cons form rest ih =>
    apply (heval form (h form (by simp))).bind
    intro v hv
    exact ih (fun form hform => h form (by simp [hform])) hv

/-- Names are bound one after another, each to the value of its form. -/
theorem bindEach_agree (hE : Halt.Admitted E) {bindings : List (Value × Value)}
    (h : ∀ b ∈ bindings, F b.2)
    (hbind : ∀ name v s, P v → I s → I (s.bind scope name v)) :
    Agree I (fun _ => True) E (bindEach eval scope bindings) (bindEach eval' scope bindings) := by
  induction bindings with
  | nil => exact (meets_pure trivial).agree
  | cons b rest ih =>
    apply (meets_ofExcept_of_gives hE (nameOf_gives .bindIn b.1)).agree.bind
    intro name _
    apply (heval b.2 (h b (by simp))).bind
    intro v hv
    apply (meets_bindName fun s => hbind name v s hv).agree.bind
    intro _ _
    exact ih fun b hb => h b (by simp [hb])

theorem evalDefine_agree (hE : Halt.Admitted E) (h : ∀ form ∈ args, F form)
    (hbind : ∀ name e v s, args = [.symbol name, e] → P v → I s → I (s.bind scope name v)) :
    Agree I P E (evalDefine eval args scope) (evalDefine eval' args scope) := by
  unfold evalDefine
  split
  · rename_i key form
    apply (meets_ofExcept_of_gives hE (nameOf_gives .define key)).agree.bind
    rintro name rfl
    apply (heval form (h form (by simp))).bind
    intro v hv
    apply (meets_bindName fun s => hbind name form v s rfl hv).agree.bind
    intro _ _
    exact (meets_pure hv).agree
  · apply Meets.agree
    exact meets_raise (hE.fault _ nofun)

theorem evalBranch_agree (hE : Halt.Admitted E) (h : ∀ form ∈ args, F form)
    (hnil : P .nil) : Agree I P E (evalBranch eval args scope) (evalBranch eval' args scope) := by
  unfold evalBranch
  split
  · apply (heval _ (h _ (by simp))).bind
    intro v _
    split_ifs
    · exact heval _ (h _ (by simp))
    · exact (meets_pure hnil).agree
  · apply (heval _ (h _ (by simp))).bind
    intro v _
    split_ifs
    · exact heval _ (h _ (by simp))
    · exact heval _ (h _ (by simp))
  · apply Meets.agree
    exact meets_raise (hE.fault _ nofun)

end MatrixLisp.Eval
