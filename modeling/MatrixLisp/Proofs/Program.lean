import Mathlib.Tactic
import MatrixLisp.Proofs.Eval.Depth
import MatrixLisp.Proofs.Reader.Lines
import MatrixLisp.Session

/-!
# Programs line by line

A program can be entered line by line, evaluated form by form, or wrapped into one `do`. All three
evaluate the same forms one after another in the root frame and stop at the first failure, so that
they end alike and leave the same machine.
-/
namespace MatrixLisp

namespace Eval

open Run

variable (eval : Evaluator) (scope : Scope)

theorem evalSequence_append (xs ys : List Value) (last : Value) :
    evalSequence eval scope (xs ++ ys) last =
      evalSequence eval scope xs last >>= evalSequence eval scope ys := by
  induction xs generalizing last with
  | nil => rfl
  | cons form rest ih =>
    show (eval form scope >>= fun v => evalSequence eval scope (rest ++ ys) v) =
      ((eval form scope >>= fun v => evalSequence eval scope rest v) >>= evalSequence eval scope ys)
    rw [bind_assoc]
    congr 1
    funext v
    exact ih v

/-- Where there is a form, the value to start from does not matter. -/
theorem evalSequence_of_ne_nil {forms : List Value} (h : forms ≠ []) (last other : Value) :
    evalSequence eval scope forms last = evalSequence eval scope forms other := by
  cases forms with
  | nil => exact absurd rfl h
  | cons form rest => rfl

/-- One evaluation deeper, a `do` evaluates its forms one after another. -/
theorem evalDepth_sequence (n : ℕ) (forms : List Value) :
    evalDepth (n + 1) (.list (.symbol "do" :: forms)) scope =
      evalSequence (evalDepth n) scope forms .nil := by
  have hspecial : SpecialForm.ofName? "do" = some .sequence := by decide
  show evalForm Builtin.call (evalDepth n) (.list (.symbol "do" :: forms)) scope = _
  simp only [evalForm, Value.symbol?, Option.bind_some, hspecial]
  rfl

end Eval

namespace Session

open Run Eval Reader

/-- Reads and evaluates lines one after another, up to the first that fails, and gives the last
value, or a given one when there is no line. -/
def evalLines (eval : Evaluator) : List String → Value → Run Value
  | [], last => pure last
  | line :: rest, _ => do
    let v ← evalLineWith eval line
    evalLines eval rest v

variable (eval : Evaluator)

theorem evalAllWith_eq_evalSequence (forms : List Value) :
    evalAllWith eval forms = evalSequence eval rootScope forms .nil := by
  induction forms with
  | nil => rfl
  | cons form rest ih =>
    cases rest with
    | nil => exact (bind_pure _).symm
    | cons next rest =>
      show (eval form rootScope >>= fun _ => evalAllWith eval (next :: rest)) = _
      rw [ih]
      rfl

theorem evalLineWith_of_reads {line : String} {vs : List Value} (h : Reads line vs) :
    evalLineWith eval line = evalSequence eval rootScope vs .nil := by
  obtain ⟨forms, hread, rfl⟩ := h.exists_readAll
  rw [evalLineWith, hread]
  exact evalAllWith_eq_evalSequence eval _

/-- A line that is not read raises a fault, whatever the evaluation does. -/
theorem evalLineWith_raises_or_reads (line : String) :
    (∃ f : Fault, ∀ eval, evalLineWith eval line = raise f) ∨ ∃ vs, Reads line vs := by
  cases hread : readAll line with
  | error e =>
    refine .inl ⟨e.fault, fun eval => ?_⟩
    rw [evalLineWith, hread]
  | ok forms => exact .inr ⟨forms.map Prod.fst, congrArg (Except.map (List.map Prod.fst)) hread⟩

/-- At the start all values are such as hold no others. -/
theorem all_start {P : Value → Prop} (h : ∀ v : Value, v.IsAtom → P v) (source : Source) :
    (startWith source).store.All P := by
  refine Store.All.empty.push (Frame.forall_ofList (P := fun _ v => P v) fun b hb => h _ ?_)
  rcases List.mem_append.mp hb with hb | hb
  · obtain ⟨f, -, rfl⟩ := List.mem_map.mp hb
    trivial
  · simp only [literals, List.mem_cons, List.not_mem_nil, or_false] at hb
    rcases hb with rfl | rfl | rfl | rfl <;> trivial

/-- Lines with forms on them are evaluated form by form. -/
theorem evalLines_eq_evalSequence {lines : List String} {vss : List (List Value)}
    (h : List.Forall₂ Reads lines vss) (hforms : ∀ vs ∈ vss, vs ≠ []) (last : Value) :
    evalLines eval lines last = evalSequence eval rootScope vss.flatten last := by
  induction h generalizing last with
  | nil => rfl
  | @cons line vs lines vss hline _ ih =>
    have hrest := ih fun vs hvs => hforms vs (by simp [hvs])
    rw [List.flatten_cons, evalSequence_append, evalLines, evalLineWith_of_reads eval hline,
      evalSequence_of_ne_nil eval rootScope (hforms vs (by simp)) .nil last]
    congr 1
    funext v
    exact hrest v

/-- Lines that are read one by one, each with a form on it, are evaluated as the forms of the text
that they make up. -/
theorem evalLines_of_readAll {lines : List String}
    (h : ∀ line ∈ lines, ∃ forms, readAll line = .ok forms ∧ forms ≠ []) :
    ∃ forms, readAll ("\n".intercalate lines) = .ok forms ∧ ∀ eval last,
      evalLines eval lines last = evalSequence eval rootScope (forms.map Prod.fst) last := by
  obtain ⟨vss, hreads, hvss⟩ : ∃ vss, List.Forall₂ Reads lines vss ∧ ∀ vs ∈ vss, vs ≠ [] := by
    induction lines with
    | nil => exact ⟨[], .nil, by simp⟩
    | cons line rest ih =>
      obtain ⟨forms, hread, hforms⟩ := h line (by simp)
      obtain ⟨vss, hreads, hvss⟩ := ih fun line hline => h line (by simp [hline])
      refine ⟨forms.map Prod.fst :: vss, .cons ?_ hreads, ?_⟩
      · rw [Reads, hread]
        rfl
      · intro vs hvs
        rcases List.mem_cons.mp hvs with rfl | hvs
        · simpa using hforms
        · exact hvss vs hvs
  obtain ⟨forms, hforms, hflat⟩ := (reads_intercalate hreads).exists_readAll
  refine ⟨forms, hforms, fun eval last => ?_⟩
  rw [hflat]
  exact evalLines_eq_evalSequence eval hreads hvss last

end Session

namespace Program

open Run Eval Session Reader

/-- The outcome of a program, without the place of its failure. -/
def outcome (result : Except Failure Value × Machine) : Except Halt Value × Machine :=
  (result.1.mapError Failure.halt, result.2)

theorem outcome_evalFormsWith (eval : Evaluator) (forms : List Form) (last : Value) (m : Machine) :
    outcome (evalFormsWith eval forms last m) =
      evalSequence eval rootScope (forms.map Prod.fst) last m := by
  induction forms generalizing last m with
  | nil => rfl
  | cons form rest ih =>
    rw [evalFormsWith, List.map_cons, evalSequence]
    cases hrun : eval form.1 rootScope m with
    | mk r m' =>
      cases r with
      | ok v =>
        rw [bind_apply_of_ok _ hrun]
        exact ih v m'
      | error h =>
        rw [bind_apply_of_error _ hrun]
        rfl

/-- Lines that are read one by one, each with a form on it, are read as one text. Entered one after
another, evaluated form by form as that text, or wrapped into one `do`, which takes one evaluation
more, they end alike and leave the same machine. If the lines do not go too deep at some depth, this
is how all three end at every depth that is great enough. -/
theorem evalLines_eq_program (lines : List String)
    (h : ∀ line ∈ lines, ∃ forms, readAll line = .ok forms ∧ forms ≠ []) :
    ∃ forms, readAll ("\n".intercalate lines) = .ok forms ∧ ∀ n m,
      outcome (evalFormsWith (evalDepth n) forms .nil m) = evalLines (evalDepth n) lines .nil m ∧
      evalDepth (n + 1) (.list (.symbol "do" :: forms.map Prod.fst)) rootScope m =
        evalLines (evalDepth n) lines .nil m ∧
      ((evalLines (evalDepth n) lines .nil m).1 ≠ .error .tooDeep →
        Settles (fun k => evalLines (evalDepth k) lines .nil) m
            (evalLines (evalDepth n) lines .nil m) ∧
          Settles (fun k m => outcome (evalFormsWith (evalDepth k) forms .nil m)) m
            (evalLines (evalDepth n) lines .nil m) ∧
          Settles (fun k => evalDepth k (.list (.symbol "do" :: forms.map Prod.fst)) rootScope) m
            (evalLines (evalDepth n) lines .nil m)) := by
  obtain ⟨forms, hforms, hlines⟩ := evalLines_of_readAll h
  have hprogram : ∀ n m, outcome (evalFormsWith (evalDepth n) forms .nil m) =
      evalLines (evalDepth n) lines .nil m := by
    intro n m
    rw [hlines]
    exact outcome_evalFormsWith ..
  have hdo : ∀ n m, evalDepth (n + 1) (.list (.symbol "do" :: forms.map Prod.fst)) rootScope m =
      evalLines (evalDepth n) lines .nil m := by
    intro n m
    rw [hlines, evalDepth_sequence]
  refine ⟨forms, hforms, fun n m => ⟨hprogram n m, hdo n m, fun hdeep => ?_⟩⟩
  rw [← hdo n m] at hdeep
  have hsettles := settles_evalDepth hdeep
  rw [hdo n m] at hsettles
  have hentered := (settles_succ_iff (hdo · m)).mp hsettles
  refine ⟨hentered, ?_, hsettles⟩
  simpa only [Settles, hprogram] using hentered

/-- A failure on the second line ends all three: what was defined on the first line stays, and what
stands behind the failure is not evaluated. -/
theorem evalLines_eq_program_unbound :
    ∃ forms, readAll "(def! a 1)\n(b) (def! a 2)" = .ok forms ∧
      outcome (evalFormsWith (evalDepth 9) forms .nil (start 0)) =
        evalLines (evalDepth 9) ["(def! a 1)", "(b) (def! a 2)"] .nil (start 0) ∧
      Settles (fun k => evalDepth k (.list (.symbol "do" :: forms.map Prod.fst)) rootScope)
        (start 0) (evalLines (evalDepth 9) ["(def! a 1)", "(b) (def! a 2)"] .nil (start 0)) ∧
      (evalLines (evalDepth 9) ["(def! a 1)", "(b) (def! a 2)"] .nil (start 0)).1 =
        .error (.fault (.unbound "b")) ∧
      (evalLines (evalDepth 9) ["(def! a 1)", "(b) (def! a 2)"] .nil (start 0)).2.store.find?
        rootScope "a" = some (.int 1) := by
  have hfirst : readAll "(def! a 1)" =
      .ok [(.list [.symbol "def!", .symbol "a", .int 1], ⟨0, 10⟩)] := by cbv
  have hsecond : readAll "(b) (def! a 2)" = .ok [(.list [.symbol "b"], ⟨0, 3⟩),
      (.list [.symbol "def!", .symbol "a", .int 2], ⟨4, 14⟩)] := by cbv
  have hfault : (evalLines (evalDepth 9) ["(def! a 1)", "(b) (def! a 2)"] .nil (start 0)).1 =
      .error (.fault (.unbound "b")) := by cbv
  have hbound : (evalLines (evalDepth 9) ["(def! a 1)", "(b) (def! a 2)"] .nil
      (start 0)).2.store.find? rootScope "a" = some (.int 1) := by cbv
  have hreads : ∀ line ∈ ["(def! a 1)", "(b) (def! a 2)"], ∃ forms, readAll line = .ok forms ∧
      forms ≠ [] := by
    intro line hline
    simp only [List.mem_cons, List.not_mem_nil, or_false] at hline
    rcases hline with rfl | rfl
    · exact ⟨_, hfirst, by simp⟩
    · exact ⟨_, hsecond, by simp⟩
  obtain ⟨forms, hforms, hruns⟩ := evalLines_eq_program _ hreads
  obtain ⟨hprogram, -, hsettles⟩ := hruns 9 (start 0)
  have hdeep : (evalLines (evalDepth 9) ["(def! a 1)", "(b) (def! a 2)"] .nil (start 0)).1 ≠
      .error .tooDeep := by
    rw [hfault]
    intro h
    cases h
  exact ⟨forms, hforms, hprogram, (hsettles hdeep).2.2, hfault, hbound⟩

end Program

end MatrixLisp
