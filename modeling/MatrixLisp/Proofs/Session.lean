import Mathlib.Tactic
import MatrixLisp.Proofs.Eval.WellFormed
import MatrixLisp.Proofs.Reader.WellFormed
import MatrixLisp.Session

/-!
# Sessions meet only well-formed values

Lines are read and evaluated one after another on one machine, from the root frame on. Every value
that is stored, given to a builtin or returned on the way is well-formed.
-/
namespace MatrixLisp.Session

open Run Eval

/-- The results of lines that are evaluated one after another on one machine, and the machine. A
failure ends its line and no more. -/
def run (eval : Evaluator) : List String → Machine → List (Except Halt Value) × Machine
  | [], m => ([], m)
  | line :: rest, m =>
    let (result, m) := evalLineWith eval line m
    let (results, m) := run eval rest m
    (result :: results, m)

/-- What every line respects, a session respects. -/
theorem run_of_line {I : Machine → Prop} {P : Value → Prop} {E : Halt → Prop}
    {eval eval' : Evaluator}
    (hline : ∀ line m, I m → evalLineWith eval' line m = evalLineWith eval line m ∧
      Outcome P E (evalLineWith eval line m).1 ∧ I (evalLineWith eval line m).2)
    (lines : List String) {m : Machine} (hm : I m) :
    run eval' lines m = run eval lines m ∧ (∀ r ∈ (run eval lines m).1, Outcome P E r) ∧
      I (run eval lines m).2 := by
  induction lines generalizing m with
  | nil => exact ⟨rfl, by simp [run], hm⟩
  | cons line rest ih =>
    obtain ⟨hsame, hresult, hnext⟩ := hline line m hm
    obtain ⟨hrest, hresults, hlast⟩ := ih hnext
    refine ⟨?_, ?_, hlast⟩
    · simp only [run, hsame, hrest]
    · intro r hr
      rcases List.mem_cons.mp hr with rfl | hr
      · exact hresult
      · exact hresults r hr

section

variable {eval eval' : Evaluator} (heval : Sound eval eval')

include heval

theorem evalAllWith_agree {forms : List Value} (h : ∀ form ∈ forms, form.WellFormed) :
    Agree Store.WellFormed Value.WellFormed Halt.Ordinary
      (evalAllWith eval forms) (evalAllWith eval' forms) := by
  induction forms with
  | nil => exact (meets_pure .nil).agree
  | cons form rest ih =>
    have hform := heval rootScope form (h form (by simp))
    cases rest with
    | nil => exact hform
    | cons next rest => exact hform.bind fun _ _ => ih fun form hform => h form (by simp [hform])

theorem evalLineWith_agree (line : String) :
    Agree Store.WellFormed Value.WellFormed Halt.Ordinary
      (evalLineWith eval line) (evalLineWith eval' line) := by
  have hread : Outcome _ ReadError.Ordinary (Reader.readAll line) :=
    Reader.readForms_outcome (Token.tokenize line)
  unfold evalLineWith
  split
  · rename_i forms hforms
    rw [hforms] at hread
    refine evalAllWith_agree heval fun form hform => ?_
    obtain ⟨f, hf, rfl⟩ := List.mem_map.mp hform
    exact hread f hf
  · rename_i e he
    rw [he] at hread
    exact (meets_raise hread).agree

/-- Line by line, a session on a well-formed store goes the same way with both evaluations, gives
well-formed values and ordinary halts, and keeps the store well-formed. -/
theorem run_agree (lines : List String) {m : Machine} (hm : m.store.WellFormed) :
    run eval' lines m = run eval lines m ∧
      (∀ r ∈ (run eval lines m).1, Outcome Value.WellFormed Halt.Ordinary r) ∧
      (run eval lines m).2.store.WellFormed :=
  run_of_line (I := fun m => m.store.WellFormed) (evalLineWith_agree heval) lines hm

end

theorem wellFormed_start (source : Source) : (startWith source).store.WellFormed := by
  refine Store.WellFormed.empty.push (Frame.wellFormed_ofList ?_)
  intro b hb
  rcases List.mem_append.mp hb with hb | hb
  · obtain ⟨f, -, rfl⟩ := List.mem_map.mp hb
    exact .builtin f
  · simp only [literals, List.mem_cons, List.not_mem_nil, or_false] at hb
    rcases hb with rfl | rfl | rfl | rfl
    · exact .bool true
    · exact .bool false
    · exact .nil
    · exact .symbol ";"

/-- Whatever lines are read and evaluated one after another, whatever failures occur and whatever
numbers are drawn: every value in every frame and every result is well-formed, no line fails because a parameter is no symbol, all
goes the same way with any builtins that behave differently only if an argument or a value in the
store is not well-formed, and a well-formed closure fails to bind its arguments only by their
number. -/
theorem run_wellFormed (n : ℕ) (source : Source) (lines : List String) :
    (run (evalDepth n) lines (startWith source)).2.store.WellFormed ∧
    (∀ v, .ok v ∈ (run (evalDepth n) lines (startWith source)).1 → v.WellFormed) ∧
    (∀ got, .error (.fault (.parameterType got)) ∉
      (run (evalDepth n) lines (startWith source)).1) ∧
    (∀ call, Conforms call → run (evalDepthWith call n) lines (startWith source) =
      run (evalDepth n) lines (startWith source)) ∧
    (∀ id params body scope args f, (Value.closure id params body scope).WellFormed →
      Frame.ofParams params args = .error f → f = .closureArity params.length args.length) := by
  have hsession : ∀ call, Conforms call → _ := fun call hcall =>
    run_agree (sound_evalDepth hcall n) lines (wellFormed_start source)
  obtain ⟨-, hresults, hstore⟩ := hsession Builtin.call fun _ _ _ _ _ => rfl
  refine ⟨hstore, ?_, ?_, fun call hcall => (hsession call hcall).1, ?_⟩
  · intro v hv
    exact hresults _ hv
  · intro got hgot
    exact hresults _ hgot got rfl
  · intro id params body scope args f hclosure hf
    cases hclosure with
    | closure _ _ hparams _ =>
      obtain ⟨frame, hframe, -⟩ | harity := Frame.ofParams_of_symbols hparams args
      · rw [hframe] at hf
        cases hf
      · rw [harity] at hf
        cases hf
        rfl

/-- Builtins that crash on arguments which are not well-formed are as good as those of the language:
the fraction is brought to lowest terms, bound, captured and used as a value of a map. -/
theorem run_wellFormed_crash :
    (∃ call : Caller,
      (∀ b args, ¬(∀ a ∈ args, a.WellFormed) → call b args = halt (.crash .missingArgument)) ∧
      run (evalDepthWith call 9) ["(def! q (/ 6 -4))", "\x7bq ((fn* (x) (* q x)) 2)\x7d"] (start 0) =
        run (evalDepth 9) ["(def! q (/ 6 -4))", "\x7bq ((fn* (x) (* q x)) 2)\x7d"] (start 0)) ∧
    ∃ f, Frame.ofParams [.symbol "x"] [] = .error f ∧ f = .closureArity 1 0 := by
  classical
  obtain ⟨-, -, -, hcalls, hclosures⟩ :=
    run_wellFormed 9 (.ofSeed 0) ["(def! q (/ 6 -4))", "\x7bq ((fn* (x) (* q x)) 2)\x7d"]
  constructor
  · refine ⟨fun b args => if ∀ a ∈ args, a.WellFormed then Builtin.call b args
      else halt (.crash .missingArgument), ?_, hcalls _ ?_⟩
    · intro b args hargs
      exact if_neg hargs
    · intro b args m hargs _
      simp only [if_pos hargs]
  · have hclosure : (Value.closure 0 [.symbol "x"] .nil rootScope).WellFormed := by
      refine .closure 0 rootScope ?_ .nil
      intro p hp
      exact ⟨"x", List.mem_singleton.mp hp⟩
    exact ⟨_, rfl, hclosures 0 _ _ _ [] _ hclosure rfl⟩

end MatrixLisp.Session
