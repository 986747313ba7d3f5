import Mathlib.Tactic
import MatrixLisp.Proofs.Token.Scan
import MatrixLisp.Reader.Form

/-!
# Reading further on in a source

A text that stands further on in a source is cut into the same tokens with their spans moved along, as
far as spans can hold the offsets. The reader only passes spans on and covers them, so that moved
tokens are read as the same forms, or lead to the same error, with moved spans, whenever the offsets
keep their order.
-/
namespace MatrixLisp

/-- The span with both of its offsets moved. -/
def Span.move (f : ℕ → ℕ) (s : Span) : Span := ⟨f s.start, f s.stop⟩

/-- The span moved along by a number of bytes. -/
def Span.shift (n : ℕ) (s : Span) : Span := ⟨s.start + n, s.stop + n⟩

/-- Where an offset comes to lie in a source that has a number of bytes before the text. -/
def Span.along (n offset : ℕ) : ℕ := min (offset + n) maxOffset

theorem Span.monotone_along (n : ℕ) : Monotone (along n) :=
  fun _ _ h => min_le_min_right _ (Nat.add_le_add_right h n)

theorem Span.cover_point_move {f : ℕ → ℕ} (hf : Monotone f) (a b : Span) :
    (a.move f).cover (.point (b.move f).stop) = (a.cover (.point b.stop)).move f := by
  simp only [move, cover, point, hf.map_min, hf.map_max]

def Token.move (f : ℕ → ℕ) (t : Token) : Token := { t with span := t.span.move f }

def Token.shift (n : ℕ) (t : Token) : Token := { t with span := t.span.shift n }

def ReadError.move (f : ℕ → ℕ) (e : ReadError) : ReadError := { e with span := e.span.move f }

def ReadError.shift (n : ℕ) (e : ReadError) : ReadError := { e with span := e.span.shift n }

namespace Token

open Text

/-- Further on, a text is cut into the same tokens, each moved along as far as spans reach. -/
theorem scan_along (n offset : ℕ) (cs : List Char) :
    scan (offset + n) cs = (scan offset cs).map (Token.move (Span.along n)) := by
  induction offset, cs using scan_induction with
  | nil offset => simp
  | separator offset c rest tokens hc ih =>
    rw [scan_cons_of_separator hc, ← ih, Nat.add_right_comm]
  | lexeme offset kind after tokens hlex ih =>
    have hspan : Span.ofRange (offset + n) (offset + n + kind.text.utf8ByteSize) =
        (Span.ofRange offset (offset + kind.text.utf8ByteSize)).move (Span.along n) := by
      simp only [Span.ofRange, Span.move, Span.along, Span.mk.injEq]
      omega
    rw [scan_of_lexeme? hlex, List.map_cons, ← ih, hspan, Nat.add_right_comm]
    rfl

/-- Further on, a text is cut into the same tokens with their spans moved along. -/
theorem scan_shift (n offset : ℕ) (cs : List Char) (h : offset + n + width cs ≤ Span.maxOffset) :
    scan (offset + n) cs = (scan offset cs).map (Token.shift n) := by
  induction offset, cs using scan_induction with
  | nil offset => simp
  | separator offset c rest tokens hc ih =>
    rw [width_cons] at h
    rw [scan_cons_of_separator hc, ← ih (by omega)]
    congr 1
    omega
  | lexeme offset kind after tokens hlex ih =>
    rw [width_append, width_toList] at h
    rw [scan_of_lexeme? hlex, List.map_cons, ← ih (by omega)]
    have hspan : Span.ofRange (offset + n) (offset + n + kind.text.utf8ByteSize) =
        (Span.ofRange offset (offset + kind.text.utf8ByteSize)).shift n := by
      rw [Span.ofRange_eq (by omega) (by omega), Span.ofRange_eq (by omega) (by omega), Span.shift,
        Nat.add_right_comm]
    rw [hspan, Nat.add_right_comm]
    rfl

end Token

namespace Reader

def Pending.move (f : ℕ → ℕ) : Pending → Pending
  | .bracket b opened items => .bracket b (opened.move f) items
  | .mark m span => .mark m (span.move f)

def Progress.move (f : ℕ → ℕ) : Progress → Progress
  | .done v => .done v
  | .waiting top below => .waiting (top.move f) (below.map (Pending.move f))

def Form.move (f : ℕ → ℕ) (form : Form) : Form := (form.1, form.2.move f)

def Form.shift (n : ℕ) (form : Form) : Form := (form.1, form.2.shift n)

def moveResult {α : Type} (f : ℕ → ℕ) (move : α → α) : Except ReadError α → Except ReadError α
  | .ok a => .ok (move a)
  | .error e => .error (e.move f)

def shiftResult {α : Type} (move : ℕ → α → α) (n : ℕ) : Except ReadError α → Except ReadError α
  | .ok a => .ok (move n a)
  | .error e => .error (e.shift n)

variable {f : ℕ → ℕ}

theorem deliver_move (f : ℕ → ℕ) (v : Value) (stack : List Pending) :
    deliver v (stack.map (Pending.move f)) = (deliver v stack).move f := by
  induction stack generalizing v with
  | nil => rfl
  | cons p below ih =>
    cases p with
    | bracket b opened items => rfl
    | mark m span => exact ih _

theorem assemble_move (f : ℕ → ℕ) (b : Bracket) (span : Span) (items : List Value) :
    assemble b (span.move f) items = moveResult f id (assemble b span items) := by
  cases b with
  | round => rfl
  | square => rfl
  | curly =>
    unfold assemble
    split_ifs <;> rfl

theorem close_move (hf : Monotone f) (b : Bracket) (span : Span) (stack : List Pending) :
    close b (span.move f) (stack.map (Pending.move f)) =
      moveResult f (Progress.move f) (close b span stack) := by
  cases stack with
  | nil => rfl
  | cons p below =>
    cases p with
    | mark m opened => rfl
    | bracket b' opened items =>
      simp only [List.map_cons, Pending.move, close]
      split_ifs
      · rw [Span.cover_point_move hf, assemble_move]
        cases assemble b (opened.cover (.point span.stop)) items.reverse with
        | error e => rfl
        | ok v => exact congrArg Except.ok (deliver_move f v below)
      · rfl

theorem advance_move (hf : Monotone f) (stack : List Pending) (t : Token) :
    advance (stack.map (Pending.move f)) (t.move f) =
      moveResult f (Progress.move f) (advance stack t) := by
  obtain ⟨kind, span⟩ := t
  have hdeliver : ∀ v, Except.ok (ε := ReadError) (deliver v (stack.map (Pending.move f))) =
      moveResult f (Progress.move f) (.ok (deliver v stack)) :=
    fun v => congrArg Except.ok (deliver_move f v stack)
  cases kind with
  | opener b => rfl
  | mark m => rfl
  | closer b => exact close_move hf b span stack
  | caret => exact hdeliver _
  | semicolon => exact hdeliver _
  | string s => exact hdeliver _
  | unterminated s => rfl
  | unmatched s => rfl
  | atom s =>
    simp only [advance, Token.move]
    cases Literal.classify s with
    | ok v => exact hdeliver v
    | error e => rfl

theorem unfinished_move (f : ℕ → ℕ) (p : Pending) :
    unfinished (p.move f) = (unfinished p).move f := by
  cases p <;> rfl

/-- Reading on inside moved contexts, moved tokens give the moved result. -/
theorem continueForm_move (hf : Monotone f) (start : Span) (top : Pending) (below : List Pending)
    (tokens : List Token) :
    continueForm (start.move f) (top.move f) (below.map (Pending.move f))
        (tokens.map (Token.move f)) =
      (moveResult f (Form.move f) (continueForm start top below tokens).1,
        (continueForm start top below tokens).2.map (Token.move f)) := by
  induction tokens generalizing top below with
  | nil => simp [continueForm, moveResult, unfinished_move]
  | cons t rest ih =>
    have hadvance := advance_move hf (top :: below) t
    rw [List.map_cons] at hadvance
    rw [List.map_cons, continueForm, continueForm, hadvance]
    cases advance (top :: below) t with
    | error e => rfl
    | ok progress =>
      cases progress with
      | done v =>
        simp only [moveResult, Progress.move, Form.move]
        rw [← Span.cover_point_move hf]
        rfl
      | waiting top below => exact ih top below

theorem readForm_move (hf : Monotone f) (t : Token) (rest : List Token) :
    readForm (t.move f) (rest.map (Token.move f)) =
      (moveResult f (Form.move f) (readForm t rest).1,
        (readForm t rest).2.map (Token.move f)) := by
  have hadvance := advance_move hf [] t
  rw [List.map_nil] at hadvance
  rw [readForm, readForm, hadvance]
  cases advance [] t with
  | error e => rfl
  | ok progress =>
    cases progress with
    | done v =>
      simp only [moveResult, Progress.move, Form.move]
      rw [← Span.cover_point_move hf]
      rfl
    | waiting top below => exact continueForm_move hf t.span top below rest

/-- Moved tokens are read as the same forms, or lead to the same error, with moved spans. -/
theorem readForms_move (hf : Monotone f) (tokens : List Token) :
    readForms (tokens.map (Token.move f)) =
      moveResult f (List.map (Form.move f)) (readForms tokens) := by
  fun_induction readForms tokens with
  | case1 =>
    rw [List.map_nil, readForms]
    rfl
  | case2 t rest result form hform ih =>
    rw [List.map_cons, readForms, readForm_move hf]
    have hresult : (readForm t rest).1 = .ok form := hform
    simp only [hresult, moveResult]
    rw [ih]
    cases readForms result.2 <;> rfl
  | case3 t rest result e herror =>
    rw [List.map_cons, readForms, readForm_move hf]
    have hresult : (readForm t rest).1 = .error e := herror
    simp only [hresult, moveResult]

/-- Tokens moved along are read as the same forms, or lead to the same error, with moved spans. -/
theorem readForms_shift (n : ℕ) (tokens : List Token) :
    readForms (tokens.map (Token.shift n)) =
      shiftResult (fun n => List.map (Form.shift n)) n (readForms tokens) := by
  have hmove := readForms_move (f := (· + n)) (fun _ _ h => Nat.add_le_add_right h n) tokens
  have htokens : tokens.map (Token.shift n) = tokens.map (Token.move (· + n)) := rfl
  rw [htokens, hmove]
  cases readForms tokens <;> rfl

end Reader

end MatrixLisp
