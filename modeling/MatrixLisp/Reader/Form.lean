import MatrixLisp.Reader.Error
import MatrixLisp.Reader.Literal
import MatrixLisp.Token.Lexer
import MatrixLisp.Value.Dict

/-!
# From tokens to forms

Forms are read in one pass over the tokens. Open brackets and marks that wait for their contents lie
on a stack, innermost first. A token opens a context, closes the innermost one, or is a form by
itself; a finished form is delivered to the innermost context, and a mark passes it on at once. The
reading of a form ends, with a value or an error, after the token that decides it, and what remains
can be read on as if it stood alone.
-/
namespace MatrixLisp.Reader

/-- A context that waits for forms. -/
inductive Pending where
  /-- An open bracket, where it was opened, and the forms in it so far, the last one first. -/
  | bracket (bracket : Bracket) (opened : Span) (items : List Value)
  /-- A mark and its place. -/
  | mark (mark : Mark) (span : Span)

/-- Where the reading of a form stands. -/
inductive Progress where
  | done (value : Value)
  | waiting (top : Pending) (below : List Pending)

/-- Delivers a finished form to the innermost context. -/
def deliver (v : Value) : List Pending → Progress
  | [] => .done v
  | .bracket b opened items :: below => .waiting (.bracket b opened (v :: items)) below
  | .mark m _ :: below => deliver (.list [.symbol m.symbol, v]) below

/-- The value of a bracket with its items. -/
def assemble (b : Bracket) (span : Span) (items : List Value) : Except ReadError Value :=
  match b with
  | .round => .ok (.list items)
  | .square => .ok (.vector items)
  | .curly =>
    if items.length % 2 = 0 then .ok (.map (Dict.ofList (Dict.pairs items)))
    else .error ⟨.oddEntries items.length, span, .oddMapEntries⟩

/-- Closes the innermost context, which must be a bracket of the same shape. -/
def close (b : Bracket) (span : Span) : List Pending → Except ReadError Progress
  | .bracket b' opened items :: below =>
    if b = b' then
      (assemble b (opened.cover (.point span.stop)) items.reverse).map (deliver · below)
    else .error ⟨.unexpectedCloser b, span, .unexpectedDelimiter⟩
  | _ => .error ⟨.unexpectedCloser b, span, .unexpectedDelimiter⟩

def literalCode (f : Fault) : ErrorCode :=
  match f.kind with
  | .divisionByZero => .zeroDenominator
  | .outOfRange => .literalOutOfRange
  | _ => .unexpectedCharacter

/-- Takes one token in. -/
def advance (stack : List Pending) (t : Token) : Except ReadError Progress :=
  match t.kind with
  | .opener b => .ok (.waiting (.bracket b t.span []) stack)
  | .mark m => .ok (.waiting (.mark m t.span) stack)
  | .closer b => close b t.span stack
  | .caret => .ok (deliver (.symbol t.kind.text) stack)
  | .semicolon => .ok (deliver (.symbol t.kind.text) stack)
  | .string s => .ok (deliver (.symbol s) stack)
  | .unterminated _ => .error ⟨.unterminatedString, t.span, .unterminatedString⟩
  | .unmatched s => .error ⟨.unexpectedCharacter s, t.span, .unexpectedCharacter⟩
  | .atom s =>
    match Literal.classify s with
    | .ok v => .ok (deliver v stack)
    | .error f => .error ⟨f, t.span, literalCode f⟩

def unfinished : Pending → ReadError
  | .bracket b opened _ => ⟨.unclosed b, opened, .unclosedDelimiter⟩
  | .mark m span => ⟨.missingForm m, span, .unclosedDelimiter⟩

abbrev Form := Value × Span

/-- Reads on inside a form that starts at a span. -/
def continueForm (start : Span) (top : Pending) (below : List Pending) :
    List Token → Except ReadError Form × List Token
  | [] => (.error (unfinished top), [])
  | t :: rest =>
    match advance (top :: below) t with
    | .error e => (.error e, rest)
    | .ok (.done v) => (.ok (v, start.cover (.point t.span.stop)), rest)
    | .ok (.waiting top below) => continueForm start top below rest

/-- Reads the form that starts with a token. -/
def readForm (t : Token) (rest : List Token) : Except ReadError Form × List Token :=
  match advance [] t with
  | .error e => (.error e, rest)
  | .ok (.done v) => (.ok (v, t.span.cover (.point t.span.stop)), rest)
  | .ok (.waiting top below) => continueForm t.span top below rest

theorem length_continueForm_le (start : Span) (top : Pending) (below : List Pending)
    (tokens : List Token) : (continueForm start top below tokens).2.length ≤ tokens.length := by
  induction tokens generalizing top below with
  | nil => simp [continueForm]
  | cons t rest ih =>
    rw [continueForm]
    split
    · simp
    · simp
    · exact Nat.le_trans (ih ..) (Nat.le_succ _)

/-- A form takes at least its first token. -/
theorem length_readForm_le (t : Token) (rest : List Token) :
    (readForm t rest).2.length ≤ rest.length := by
  unfold readForm
  split
  · simp
  · simp
  · exact length_continueForm_le ..

/-- Every form of a token sequence, or the first error. -/
def readForms : List Token → Except ReadError (List Form)
  | [] => .ok []
  | t :: rest =>
    let result := readForm t rest
    match result.1 with
    | .ok form => (readForms result.2).map (form :: ·)
    | .error e => .error e
termination_by tokens => tokens.length
decreasing_by exact Nat.lt_succ_of_le (length_readForm_le t rest)

/-- Every form of a source text with its span. -/
def readAll (source : String) : Except ReadError (List Form) :=
  readForms (Token.tokenize source)

/-- The first form of a source text; an empty source reads as `nil`. -/
def readFirst (source : String) : Except ReadError Value :=
  match Token.tokenize source with
  | [] => .ok .nil
  | t :: rest => (readForm t rest).1.map Prod.fst

end MatrixLisp.Reader
