import Mathlib.Tactic
import MatrixLisp.Proofs.Reader.Grammar
import MatrixLisp.Reader.Parser

/-!
# Recursive descent

The reader that keeps its open contexts on a stack reads what recursive descent reads. The contexts on
the stack are the calls that the descent has not returned from: where a call returns a value, the value
is delivered to the context below, and an error ends both readings after the same token.
-/
namespace MatrixLisp.Reader.Parser

/-- Reads on from where the reading of a form stands, with the tokens that a parser has left. -/
def carryOn (start : Span) (p : Parser) :
    Except ReadError Progress → Except ReadError Form × List Token
  | .error e => (.error e, p.tokens)
  | .ok (.done v) => (.ok (v, start.cover p.lastEnd), p.tokens)
  | .ok (.waiting top below) => continueForm start top below p.tokens

theorem feed_eq_carryOn (start : Span) (stack : List Pending) (t : Token) (rest : List Token) :
    feed start stack t rest = (behind t rest).carryOn start (advance stack t) := by
  rw [feed]
  cases advance stack t with
  | error e => rfl
  | ok progress => cases progress <;> rfl

/-- The items of a bracket, behind those that were read before, close it and are delivered. -/
def closeWith (b : Bracket) (opened : Span) (items : List Value) (below : List Pending) (p : Parser)
    (result : Except ReadError (List Value)) : Except ReadError Progress :=
  result.bind fun more =>
    (assemble b (opened.cover p.lastEnd) (items.reverse ++ more)).map (deliver · below)

theorem closeWith_cons (b : Bracket) (opened : Span) (items : List Value) (below : List Pending)
    (p : Parser) (v : Value) (result : Except ReadError (List Value)) :
    closeWith b opened (v :: items) below p result =
      closeWith b opened items below p (result.map (v :: ·)) := by
  cases result with
  | error e => rfl
  | ok more => simp [closeWith, Except.bind, Except.map]

/-- A token that is refused by the innermost context if it is a closer. -/
def Refuses (stack : List Pending) (t : Token) : Prop :=
  ∀ b, t.kind = .closer b →
    close b t.span stack = .error ⟨.unexpectedCloser b, t.span, .unexpectedDelimiter⟩

mutual

/-- A token that is taken in with contexts around it leads where the delivery of the value leads that
the descent reads from the token on. -/
theorem carryOn_advance (start : Span) {stack : List Pending} {t : Token} (h : Refuses stack t)
    (tokens : List Token) :
    (behind t tokens).carryOn start (advance stack t) =
      (readValue t (behind t tokens)).2.val.carryOn start
        ((readValue t (behind t tokens)).1.map (deliver · stack)) := by
  obtain ⟨kind, span⟩ := t
  rw [readValue]
  cases kind with
  | opener b =>
    have hitems := continueForm_bracket start b span [] stack tokens (.point span.stop)
    show continueForm start (.bracket b span []) stack tokens = _
    rw [hitems]
    dsimp only [behind]
    rcases readItems b span ⟨tokens, .point span.stop⟩ with ⟨e | items, q⟩ <;> rfl
  | closer b =>
    have hrefused : advance stack ⟨.closer b, span⟩ = _ := h b rfl
    rw [hrefused]
    rfl
  | mark m =>
    cases tokens with
    | nil => rfl
    | cons u rest =>
      have hrefuses : Refuses (.mark m span :: stack) u := fun _ _ => rfl
      have hvalue := carryOn_advance start hrefuses rest
      show continueForm start (.mark m span) stack (u :: rest) = _
      rw [continueForm_cons, feed_eq_carryOn, hvalue]
      dsimp only [behind]
      rcases readValue u ⟨rest, .point u.span.stop⟩ with ⟨e | v, q⟩ <;> rfl
  | caret => rfl
  | semicolon => rfl
  | string s => rfl
  | unterminated s => rfl
  | unmatched s => rfl
  | atom s =>
    simp only [advance]
    cases Literal.classify s <;> rfl
termination_by (tokens.length, 1)

/-- An open bracket with some items leads where it leads to close it with the items that the descent
reads besides. -/
theorem continueForm_bracket (start : Span) (b : Bracket) (opened : Span) (items : List Value)
    (below : List Pending) (tokens : List Token) (lastEnd : Span) :
    continueForm start (.bracket b opened items) below tokens =
      (readItems b opened ⟨tokens, lastEnd⟩).2.val.carryOn start
        (closeWith b opened items below (readItems b opened ⟨tokens, lastEnd⟩).2.val
          (readItems b opened ⟨tokens, lastEnd⟩).1) := by
  rw [readItems]
  cases tokens with
  | nil => rfl
  | cons t rest =>
    rw [continueForm_cons, feed_eq_carryOn]
    dsimp only
    split_ifs with h
    · have hclose : advance (.bracket b opened items :: below) t =
          closeWith b opened items below (behind t rest) (.ok []) := by
        simp [advance, h, close, closeWith, behind, Except.bind]
      rw [hclose]
    · -- Only a closer of another shape is left to be read as an item.
      have hrefuses : Refuses (.bracket b opened items :: below) t := by
        intro b' hb'
        rw [close, if_neg]
        rintro rfl
        exact h hb'
      rw [carryOn_advance start hrefuses]
      rcases readValue t (behind t rest) with ⟨e | v, q⟩
      · rfl
      · have hitems :=
          continueForm_bracket start b opened (v :: items) below q.val.tokens q.val.lastEnd
        rw [closeWith_cons] at hitems
        exact hitems
termination_by (tokens.length, 0)
decreasing_by
  · exact Prod.Lex.left _ _ (Nat.lt_succ_self _)
  · exact Prod.Lex.left _ _ (Nat.lt_succ_of_le q.property)

end

/-- A parser reads the next form as the reader with a stack does, and leaves the same tokens. -/
theorem next_eq {p : Parser} {t : Token} {rest : List Token} (h : p.tokens = t :: rest) :
    p.next.1 = some (readForm t rest).1 ∧ p.next.2.tokens = (readForm t rest).2 := by
  have hrefuses : Refuses [] t := fun _ _ => rfl
  rw [readForm_eq_feed, feed_eq_carryOn, carryOn_advance _ hrefuses, next]
  simp only [h]
  rcases readValue t (behind t rest) with ⟨e | v, q⟩ <;> exact ⟨rfl, rfl⟩

theorem next_nil {p : Parser} (h : p.tokens = []) : p.next = (none, p) := by
  rw [next, h]

theorem atEnd_iff {p : Parser} : p.atEnd = true ↔ p.next.1 = none := by
  rw [atEnd, List.isEmpty_iff]
  cases h : p.tokens with
  | nil => simp [next_nil h]
  | cons t rest => simp [next_eq h]

/-- All forms are what a parser gives call by call, up to the first error. -/
theorem readForms_eq_next (p : Parser) :
    readForms p.tokens =
      match p.next.1 with
      | none => .ok []
      | some (.error e) => .error e
      | some (.ok form) => (readForms p.next.2.tokens).map (form :: ·) := by
  cases h : p.tokens with
  | nil => rw [next_nil h, readForms]
  | cons t rest =>
    rw [(next_eq h).1, (next_eq h).2, readForms]
    cases (readForm t rest).1 <;> rfl

/-- The first form is what the first call of a parser gives. -/
theorem readFirst_eq_next (source : String) :
    readFirst source =
      match (ofSource source).next.1 with
      | none => .ok .nil
      | some result => result.map Prod.fst := by
  rw [readFirst]
  cases h : Token.tokenize source with
  | nil => rw [next_nil h]
  | cons t rest => rw [(next_eq h).1]

end MatrixLisp.Reader.Parser
