import MatrixLisp.Text.Blank
import MatrixLisp.Token.Basic

/-!
# From source text to tokens

The source is cut from left to right. Separators are skipped; at any other character the longest
lexeme there is taken. `lexeme?` gives that lexeme with the text after it, and `scan` repeats it
while it keeps the byte offset. No step looks back, so the tokens of a text do not depend on what
came before it, apart from the offset.
-/
namespace MatrixLisp.Token

open Text

/-- The body of a string literal, and the text after it. The body is the longest run of characters
other than a quote and a backslash, and of backslashes followed by any character but a line feed. -/
def stringBody : List Char → List Char × List Char
  | [] => ([], [])
  | '\\' :: c :: rest =>
    if c = '\n' then ([], '\\' :: c :: rest)
    else
      let (body, after) := stringBody rest
      ('\\' :: c :: body, after)
  | c :: rest =>
    if c = '\x22' || c = '\\' then ([], c :: rest)
    else
      let (body, after) := stringBody rest
      (c :: body, after)

/-- Characters that end an atom, besides separators. -/
def endsAtom (c : Char) : Bool :=
  c == '[' || c == ']' || c == '\x7b' || c == '\x7d' || c == '(' || c == ')' ||
    c == '\x27' || c == '\x22' || c == '\x60' || c == ';'

def continuesAtom (c : Char) : Bool :=
  !(isSeparator c || endsAtom c)

/-- A character that may start an atom: sigils may stand inside an atom and not at its start. -/
def startsAtom (c : Char) : Bool :=
  continuesAtom c && !(c == '~' || c == '^' || c == '@')

/-- The kinds whose whole text is one character. -/
def single? (c : Char) : Option TokenKind :=
  if c = '(' then some (.opener .round)
  else if c = ')' then some (.closer .round)
  else if c = '[' then some (.opener .square)
  else if c = ']' then some (.closer .square)
  else if c = '\x7b' then some (.opener .curly)
  else if c = '\x7d' then some (.closer .curly)
  else if c = '\x27' then some (.mark .quote)
  else if c = '\x60' then some (.mark .quasiquote)
  else if c = '~' then some (.mark .unquote)
  else if c = '@' then some (.mark .deref)
  else if c = '^' then some .caret
  else if c = ';' then some .semicolon
  else none

/-- The string literal that starts with a quote just read. -/
def stringLexeme (rest : List Char) : TokenKind × List Char :=
  match stringBody rest with
  | (body, '\x22' :: after) => (.string (String.ofList ('\x22' :: body ++ ['\x22'])), after)
  | (body, after) => (.unterminated (String.ofList ('\x22' :: body)), after)

/-- The longest lexeme at the start of a text, with the text after it. -/
def lexeme? : List Char → Option (TokenKind × List Char)
  | [] => none
  | '~' :: '@' :: rest => some (.mark .spliceUnquote, rest)
  | c :: rest =>
    if c = '\x22' then some (stringLexeme rest)
    else
      match single? c with
      | some kind => some (kind, rest)
      | none =>
        if startsAtom c then
          some (.atom (String.ofList (c :: rest.takeWhile continuesAtom)),
            rest.dropWhile continuesAtom)
        else none

theorem length_dropWhile_le (p : Char → Bool) (cs : List Char) :
    (cs.dropWhile p).length ≤ cs.length :=
  (List.dropWhile_suffix p).length_le

theorem length_stringBody_le (cs : List Char) : (stringBody cs).2.length ≤ cs.length := by
  fun_induction stringBody cs with
  | case1 => exact Nat.le_refl _
  | case2 => exact Nat.le_refl _
  | case3 c rest _ body after hb ih =>
    rw [hb] at ih
    exact Nat.le_succ_of_le (Nat.le_succ_of_le ih)
  | case4 => exact Nat.le_refl _
  | case5 c rest _ _ body after hb ih =>
    rw [hb] at ih
    exact Nat.le_succ_of_le ih

theorem length_stringLexeme_le (cs : List Char) : (stringLexeme cs).2.length ≤ cs.length := by
  have h := length_stringBody_le cs
  unfold stringLexeme
  split
  · rename_i body after hb
    rw [hb] at h
    exact Nat.le_of_succ_le h
  · rename_i body after _ hb
    rw [hb] at h
    exact h

/-- A lexeme takes at least one character. -/
theorem length_lt_of_lexeme? {cs after : List Char} {kind : TokenKind}
    (h : lexeme? cs = some (kind, after)) : after.length < cs.length := by
  unfold lexeme? at h
  split at h
  · cases h
  · cases h
    simp only [List.length_cons]
    omega
  · rename_i c rest _
    refine Nat.lt_succ_of_le ?_
    split at h
    · have hs := length_stringLexeme_le rest
      rw [Option.some.inj h] at hs
      exact hs
    · split at h
      · cases h
        exact Nat.le_refl _
      · split at h
        · cases h
          exact length_dropWhile_le continuesAtom rest
        · cases h

/-- The lexeme at a character and the text after it. A character at which no lexeme starts is taken
alone, as unmatched text. -/
def take (c : Char) (rest : List Char) : TokenKind × List Char :=
  (lexeme? (c :: rest)).getD (.unmatched (String.singleton c), rest)

theorem length_take_le (c : Char) (rest : List Char) : (take c rest).2.length ≤ rest.length := by
  unfold take
  cases h : lexeme? (c :: rest) with
  | none => simp
  | some p => exact Nat.le_of_lt_succ (length_lt_of_lexeme? h)

/-- The tokens of a text that starts at a byte offset. -/
def scan (offset : Nat) : List Char → List Token
  | [] => []
  | c :: rest =>
    if isSeparator c then scan (offset + c.utf8Size) rest
    else
      let lexeme := take c rest
      let stop := offset + lexeme.1.text.utf8ByteSize
      ⟨lexeme.1, .ofRange offset stop⟩ :: scan stop lexeme.2
termination_by cs => cs.length
decreasing_by
  · simp
  · exact Nat.lt_succ_of_le (length_take_le c rest)

/-- The tokens of a source text, in order. -/
def tokenize (source : String) : List Token :=
  scan 0 source.toList

end MatrixLisp.Token
