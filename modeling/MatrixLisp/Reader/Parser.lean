import MatrixLisp.Reader.Form

/-!
# Reading form by form

A parser gives the forms of a source one at a time, by recursive descent over the tokens that are
left. An error takes the place of a form and gives up everything that is still open: the tokens up to
the error are taken, and reading goes on with those that remain, even if they stood inside a bracket.
-/
namespace MatrixLisp.Reader

/-- The tokens that are left to read, and where the last one that was taken ends. -/
structure Parser where
  tokens : List Token
  lastEnd : Span

namespace Parser

def ofSource (source : String) : Parser := ⟨Token.tokenize source, .dummy⟩

/-- The parser that has just taken a token. -/
def behind (t : Token) (rest : List Token) : Parser := ⟨rest, .point t.span.stop⟩

/-- Whether no token is left. -/
def atEnd (p : Parser) : Bool := p.tokens.isEmpty

/-- A parser that has no more tokens left than another one. -/
abbrev Rest (p : Parser) := {q : Parser // q.tokens.length ≤ p.tokens.length}

def here (p : Parser) : Rest p := ⟨p, Nat.le_refl _⟩

mutual

/-- Reads the form that starts with a token that was just taken. -/
def readValue (t : Token) (p : Parser) : Except ReadError Value × Rest p :=
  match t.kind with
  | .opener b =>
    match readItems b t.span p with
    | (.error e, q) => (.error e, q)
    | (.ok items, q) => (assemble b (t.span.cover q.val.lastEnd) items, q)
  | .closer b => (.error ⟨.unexpectedCloser b, t.span, .unexpectedDelimiter⟩, p.here)
  | .mark m =>
    match h : p.tokens with
    | [] => (.error ⟨.missingForm m, t.span, .unclosedDelimiter⟩, p.here)
    | u :: rest =>
      let (result, q) := readValue u (behind u rest)
      (result.map fun v => .list [.symbol m.symbol, v],
        ⟨q.val, h ▸ Nat.le_trans q.property (Nat.le_succ _)⟩)
  | .caret => (.ok (.symbol t.kind.text), p.here)
  | .semicolon => (.ok (.symbol t.kind.text), p.here)
  | .string s => (.ok (.symbol s), p.here)
  | .unterminated _ => (.error ⟨.unterminatedString, t.span, .unterminatedString⟩, p.here)
  | .unmatched s => (.error ⟨.unexpectedCharacter s, t.span, .unexpectedCharacter⟩, p.here)
  | .atom s =>
    match Literal.classify s with
    | .ok v => (.ok v, p.here)
    | .error f => (.error ⟨f, t.span, literalCode f⟩, p.here)
termination_by (p.tokens.length, 1)
decreasing_by
  · exact Prod.Lex.right _ Nat.zero_lt_one
  · exact Prod.Lex.left _ _ (h ▸ Nat.lt_succ_self _)

/-- Reads the forms up to the closer of a bracket. -/
def readItems (b : Bracket) (opened : Span) (p : Parser) : Except ReadError (List Value) × Rest p :=
  match h : p.tokens with
  | [] => (.error ⟨.unclosed b, opened, .unclosedDelimiter⟩, p.here)
  | t :: rest =>
    if t.kind = .closer b then (.ok [], ⟨behind t rest, h ▸ Nat.le_succ _⟩)
    else
      match readValue t (behind t rest) with
      | (.error e, q) => (.error e, ⟨q.val, h ▸ Nat.le_trans q.property (Nat.le_succ _)⟩)
      | (.ok v, q) =>
        let (result, r) := readItems b opened q.val
        (result.map (v :: ·),
          ⟨r.val, h ▸ Nat.le_trans r.property (Nat.le_trans q.property (Nat.le_succ _))⟩)
termination_by (p.tokens.length, 0)
decreasing_by
  · exact Prod.Lex.left _ _ (h ▸ Nat.lt_succ_self _)
  · exact Prod.Lex.left _ _ (h ▸ Nat.lt_succ_of_le q.property)

end

/-- The next form or the error in its place, if there is a token left, and the parser behind it. -/
def next (p : Parser) : Option (Except ReadError Form) × Parser :=
  match p.tokens with
  | [] => (none, p)
  | t :: rest =>
    let (result, q) := readValue t (behind t rest)
    (some (result.map fun v => (v, t.span.cover q.val.lastEnd)), q)

end Parser

end MatrixLisp.Reader
