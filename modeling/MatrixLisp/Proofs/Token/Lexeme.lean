import Mathlib.Data.List.TakeWhile
import Mathlib.Tactic
import MatrixLisp.Token.Lexer

/-!
# Lexemes and their boundaries

A lexeme is a kind of token with a text that the kind allows. The lexer reads a lexeme back from its
text whenever what follows cannot continue an atom, and all that it ever reads is a lexeme or a
string without its closing quote. What a text is cut into is told by the kinds of its tokens, which
do not depend on where the text starts.
-/
namespace MatrixLisp.Token

open Text

@[simp] theorem scan_nil (offset : Nat) : scan offset [] = [] := by rw [scan.eq_def]

theorem scan_cons_of_separator {c : Char} (h : isSeparator c = true) (offset : Nat)
    (rest : List Char) : scan offset (c :: rest) = scan (offset + c.utf8Size) rest := by
  rw [scan.eq_def]
  exact if_pos h

theorem scan_cons_of_lexeme {c : Char} (h : ¬isSeparator c = true) (offset : Nat)
    (rest : List Char) :
    scan offset (c :: rest) =
      ⟨(take c rest).1, .ofRange offset (offset + (take c rest).1.text.utf8ByteSize)⟩ ::
        scan (offset + (take c rest).1.text.utf8ByteSize) (take c rest).2 := by
  rw [scan.eq_def]
  exact if_neg h

/-- The kinds of the tokens of a text. -/
def kinds (cs : List Char) : List TokenKind := (scan 0 cs).map Token.kind

theorem map_kind_scan (offset : Nat) (cs : List Char) :
    (scan offset cs).map Token.kind = kinds cs := by
  suffices h : ∀ other, (scan offset cs).map Token.kind = (scan other cs).map Token.kind from h 0
  fun_induction scan offset cs with
  | case1 => simp
  | case2 offset c rest hsep ih =>
    intro other
    rw [scan_cons_of_separator hsep]
    exact ih _
  | case3 offset c rest hsep lexeme stop ih =>
    intro other
    rw [scan_cons_of_lexeme hsep, List.map_cons, List.map_cons, ih]

@[simp] theorem kinds_nil : kinds [] = [] := by simp [kinds]

theorem kinds_cons_of_separator {c : Char} (h : isSeparator c = true) (rest : List Char) :
    kinds (c :: rest) = kinds rest := by
  rw [kinds, scan_cons_of_separator h, map_kind_scan]

/-- The body of a string: characters other than a quote and a backslash, and backslashes followed by
any character but a line feed. -/
inductive IsStringBody : List Char → Prop
  | nil : IsStringBody []
  | plain {c : Char} {cs : List Char} : c ≠ '\x22' → c ≠ '\\' → IsStringBody cs →
      IsStringBody (c :: cs)
  | escaped {c : Char} {cs : List Char} : c ≠ '\n' → IsStringBody cs →
      IsStringBody ('\\' :: c :: cs)

theorem stringBody_quote (rest : List Char) :
    stringBody ('\x22' :: rest) = ([], '\x22' :: rest) := by
  rw [stringBody]
  · rfl
  · intro _ _ h
    cases h

theorem stringBody_plain {c : Char} (hq : c ≠ '\x22') (hb : c ≠ '\\') (rest : List Char) :
    stringBody (c :: rest) = (c :: (stringBody rest).1, (stringBody rest).2) := by
  rw [stringBody]
  · rw [if_neg (by simp [hq, hb])]
  · intro _ _ h
    cases h
    exact absurd rfl hb

theorem stringBody_escaped {c : Char} (hn : c ≠ '\n') (rest : List Char) :
    stringBody ('\\' :: c :: rest) = ('\\' :: c :: (stringBody rest).1, (stringBody rest).2) := by
  rw [stringBody, if_neg hn]

/-- A complete body ends at the quote that follows it. -/
theorem stringBody_append {body : List Char} (h : IsStringBody body) (rest : List Char) :
    stringBody (body ++ '\x22' :: rest) = (body, '\x22' :: rest) := by
  induction h with
  | nil => exact stringBody_quote rest
  | plain hq hb _ ih =>
    rw [List.cons_append, stringBody_plain hq hb, ih]
  | escaped hn _ ih =>
    rw [List.cons_append, List.cons_append, stringBody_escaped hn, ih]

theorem stringBody_sound (cs : List Char) :
    IsStringBody (stringBody cs).1 ∧ (stringBody cs).1 ++ (stringBody cs).2 = cs := by
  fun_induction stringBody cs with
  | case1 => exact ⟨.nil, rfl⟩
  | case2 => exact ⟨.nil, rfl⟩
  | case3 c rest hn body after hb ih =>
    rw [hb] at ih
    exact ⟨.escaped hn ih.1, by simp [ih.2]⟩
  | case4 => exact ⟨.nil, rfl⟩
  | case5 c rest _ hc body after hb ih =>
    rw [hb] at ih
    simp only [Bool.or_eq_true, decide_eq_true_eq, not_or] at hc
    exact ⟨.plain hc.1 hc.2 ih.1, by simp [ih.2]⟩

/-- A kind of token with a text that it can be read from. -/
def IsLexeme : TokenKind → Prop
  | .string s => ∃ body, s.toList = '\x22' :: body ++ ['\x22'] ∧ IsStringBody body
  | .atom s => ∃ c cs, s.toList = c :: cs ∧ startsAtom c = true ∧ ∀ d ∈ cs, continuesAtom d = true
  | .unterminated _ | .unmatched _ => False
  | _ => True

/-- A text that cannot continue an atom before it. -/
def Boundary (rest : List Char) : Prop := ∀ c ∈ rest.head?, continuesAtom c = false

theorem boundary_nil : Boundary [] := by simp [Boundary]

theorem boundary_cons {c : Char} (h : continuesAtom c = false) (rest : List Char) :
    Boundary (c :: rest) := by simpa [Boundary] using h

theorem Boundary.takeWhile {rest : List Char} (h : Boundary rest) :
    rest.takeWhile continuesAtom = [] := by
  cases rest with
  | nil => rfl
  | cons c rest => simp [h c rfl]

theorem Boundary.dropWhile {rest : List Char} (h : Boundary rest) :
    rest.dropWhile continuesAtom = rest := by
  cases rest with
  | nil => rfl
  | cons c rest => simp [h c rfl]

/-- A text in front of which a kind of token ends: it does not continue an atom, and it does not make
a tilde part of `~@`. -/
def Stops : TokenKind → List Char → Prop
  | .atom _, rest => Boundary rest
  | .mark .unquote, rest => rest.head? ≠ some '@'
  | _, _ => True

theorem Boundary.stops {rest : List Char} (h : Boundary rest) (kind : TokenKind) :
    Stops kind rest := by
  unfold Stops
  split
  · exact h
  · intro hat
    exact absurd (h '@' hat) (by decide)
  · trivial

/-- Whether a token ends is decided by the next character. -/
theorem stops_iff_of_head?_eq {rest other : List Char} (h : rest.head? = other.head?)
    (kind : TokenKind) : Stops kind rest ↔ Stops kind other := by
  unfold Stops Boundary
  split
  · simp only [h]
  · simp only [h]
  · exact Iff.rfl

/-- A character that is a token by itself neither separates tokens nor starts an atom. -/
theorem single?_some {c : Char} {kind : TokenKind} (h : single? c = some kind) :
    isSeparator c = false ∧ startsAtom c = false ∧ IsLexeme kind ∧ kind.text.toList = [c] := by
  unfold single? at h
  iterate 12
    obtain ⟨rfl, hkind⟩ | ⟨_, h⟩ := ite_eq_iff.mp h
    · cases hkind
      exact ⟨rfl, rfl, trivial, rfl⟩
  cases h

/-- The lexeme at a character that is no token by itself and no quote. -/
theorem lexeme?_of_single?_eq_none {c : Char} (h : single? c = none) (hq : c ≠ '\x22')
    (rest : List Char) :
    lexeme? (c :: rest) =
      if startsAtom c then some (.atom (String.ofList (c :: rest.takeWhile continuesAtom)),
        rest.dropWhile continuesAtom)
      else none := by
  unfold lexeme?
  split
  · rename_i heq
    cases heq
  · rename_i heq
    cases heq
    cases h
  · rename_i heq
    cases heq
    rw [if_neg hq, h]

/-- Where an atom can start, no other lexeme does. -/
theorem lexeme?_of_startsAtom {c : Char} (h : startsAtom c = true) (rest : List Char) :
    lexeme? (c :: rest) = some (.atom (String.ofList (c :: rest.takeWhile continuesAtom)),
      rest.dropWhile continuesAtom) := by
  have hq : c ≠ '\x22' := by
    rintro rfl
    exact absurd h (by decide)
  cases hs : single? c with
  | none => rw [lexeme?_of_single?_eq_none hs hq, if_pos h]
  | some kind => exact absurd h (by simp [(single?_some hs).2.1])

theorem lexeme?_of_separator {c : Char} (h : isSeparator c = true) (rest : List Char) :
    lexeme? (c :: rest) = none := by
  have hq : c ≠ '\x22' := by
    rintro rfl
    exact absurd h (by decide)
  cases hs : single? c with
  | none => rw [lexeme?_of_single?_eq_none hs hq, if_neg (by simp [startsAtom, continuesAtom, h])]
  | some kind => exact absurd h (by simp [(single?_some hs).1])

/-- A tilde is a lexeme by itself unless `@` follows. -/
theorem lexeme?_tilde {rest : List Char} (h : rest.head? ≠ some '@') :
    lexeme? ('~' :: rest) = some (.mark .unquote, rest) := by
  unfold lexeme?
  split
  · rename_i heq
    cases heq
  · rename_i heq
    cases heq
    exact absurd rfl h
  · rename_i heq
    cases heq
    rfl

/-- The lexer reads a lexeme back from its text exactly if it ends there. -/
theorem lexeme?_text_append_iff {kind : TokenKind} (h : IsLexeme kind) (rest : List Char) :
    lexeme? (kind.text.toList ++ rest) = some (kind, rest) ↔ Stops kind rest := by
  cases kind with
  | opener b => cases b <;> exact iff_of_true rfl trivial
  | closer b => cases b <;> exact iff_of_true rfl trivial
  | caret => exact iff_of_true rfl trivial
  | semicolon => exact iff_of_true rfl trivial
  | unterminated s => cases h
  | unmatched s => cases h
  | mark m =>
    cases m with
    | unquote =>
      refine ⟨?_, lexeme?_tilde⟩
      intro hlex hat
      obtain ⟨after, rfl⟩ := List.head?_eq_some_iff.mp hat
      cases hlex
    | _ => exact iff_of_true rfl trivial
  | string s =>
    obtain ⟨body, hs, hbody⟩ := h
    have hbody' := stringBody_append hbody rest
    have hlex : stringLexeme (body ++ '\x22' :: rest) = (.string s, rest) := by
      rw [stringLexeme, hbody']
      show (TokenKind.string (String.ofList ('\x22' :: body ++ ['\x22'])), rest) = (.string s, rest)
      rw [← hs, String.ofList_toList]
    have htext : (TokenKind.string s).text.toList ++ rest = '\x22' :: (body ++ '\x22' :: rest) := by
      rw [TokenKind.text, hs]
      simp
    refine iff_of_true ?_ trivial
    rw [htext, ← hlex]
    rfl
  | atom s =>
    obtain ⟨c, cs, hs, hc, hcs⟩ := h
    have htext : (TokenKind.atom s).text.toList ++ rest = c :: (cs ++ rest) := by
      rw [TokenKind.text, hs]
      rfl
    rw [htext, lexeme?_of_startsAtom hc, List.takeWhile_append_of_pos hcs,
      List.dropWhile_append_of_pos hcs]
    constructor
    · intro hlex
      obtain ⟨-, hrest⟩ := Prod.mk.inj (Option.some.inj hlex)
      show ∀ d ∈ rest.head?, continuesAtom d = false
      rw [← hrest]
      intro d hd
      have hnot := List.head?_dropWhile_not continuesAtom rest
      rw [Option.mem_def.mp hd] at hnot
      exact hnot
    · intro hrest
      have hrest : Boundary rest := hrest
      rw [hrest.takeWhile, hrest.dropWhile, List.append_nil, ← hs, String.ofList_toList]

/-- Where a lexeme stands, a scan takes it and goes on behind it. -/
theorem scan_of_lexeme? {cs rest : List Char} {kind : TokenKind}
    (h : lexeme? cs = some (kind, rest)) (offset : Nat) :
    scan offset cs = ⟨kind, .ofRange offset (offset + kind.text.utf8ByteSize)⟩ ::
      scan (offset + kind.text.utf8ByteSize) rest := by
  cases cs with
  | nil => cases h
  | cons c cs =>
    have hsep : ¬isSeparator c = true := by
      intro hsep
      rw [lexeme?_of_separator hsep] at h
      cases h
    have htake : take c cs = (kind, rest) := by
      rw [take, h]
      rfl
    rw [scan_cons_of_lexeme hsep, htake]

theorem kinds_of_lexeme? {cs rest : List Char} {kind : TokenKind}
    (h : lexeme? cs = some (kind, rest)) : kinds cs = kind :: kinds rest := by
  rw [kinds, scan_of_lexeme? h, List.map_cons, map_kind_scan]

/-- A lexeme up to a boundary is the first token, and what follows is cut on its own. -/
theorem kinds_text_append {kind : TokenKind} (h : IsLexeme kind) {rest : List Char}
    (hrest : Boundary rest) : kinds (kind.text.toList ++ rest) = kind :: kinds rest :=
  kinds_of_lexeme? ((lexeme?_text_append_iff h rest).mpr (hrest.stops kind))

theorem stringLexeme_sound (rest : List Char) :
    (stringLexeme rest).1.text.toList ++ (stringLexeme rest).2 = '\x22' :: rest ∧
      (IsLexeme (stringLexeme rest).1 ∨ ∃ s, (stringLexeme rest).1 = .unterminated s) := by
  obtain ⟨hbody, happend⟩ := stringBody_sound rest
  unfold stringLexeme
  split
  · rename_i body after h
    rw [h] at hbody happend
    refine ⟨?_, Or.inl ⟨body, String.toList_ofList, hbody⟩⟩
    rw [← happend]
    simp [TokenKind.text]
  · rename_i body after _ h
    rw [h] at happend
    refine ⟨?_, Or.inr ⟨_, rfl⟩⟩
    rw [← happend]
    simp [TokenKind.text]

theorem startsAtom_of_single?_eq_none {c : Char} (h : single? c = none) (hq : c ≠ '\x22')
    (hsep : isSeparator c = false) : startsAtom c = true := by
  by_contra hstart
  simp only [startsAtom, continuesAtom, endsAtom, hsep, Bool.and_eq_true, Bool.not_eq_true',
    Bool.or_eq_false_iff, beq_eq_false_iff_ne, not_and_or, not_not, or_assoc,
    not_true_eq_false, false_or] at hstart
  rcases hstart with rfl | rfl | rfl | rfl | rfl | rfl | rfl | rfl | rfl | rfl | rfl | rfl | rfl
  case inr.inr.inr.inr.inr.inr.inr.inl => exact hq rfl
  all_goals cases h

/-- At a character that is a token by itself the lexer takes it, unless it stands for more. -/
theorem lexeme?_of_single? {c : Char} {kind : TokenKind} (h : single? c = some kind)
    (rest : List Char) :
    lexeme? (c :: rest) = some (kind, rest) ∨
      ∃ after, c :: rest = '~' :: '@' :: after ∧
        lexeme? (c :: rest) = some (.mark .spliceUnquote, after) := by
  have hq : c ≠ '\x22' := by
    rintro rfl
    cases h
  unfold lexeme?
  split
  · rename_i heq
    cases heq
  · rename_i after heq
    cases heq
    exact Or.inr ⟨after, rfl, rfl⟩
  · rename_i heq
    cases heq
    rw [if_neg hq, h]
    exact Or.inl rfl

/-- Every character that separates nothing starts a lexeme, and what the lexer takes there is the
text before what it leaves. -/
theorem lexeme?_sound {c : Char} (h : isSeparator c = false) (rest : List Char) :
    ∃ kind after, lexeme? (c :: rest) = some (kind, after) ∧
      kind.text.toList ++ after = c :: rest ∧
      (IsLexeme kind ∨ ∃ s, kind = .unterminated s) := by
  by_cases hq : c = '\x22'
  · subst hq
    obtain ⟨happend, hkind⟩ := stringLexeme_sound rest
    exact ⟨_, _, rfl, happend, hkind⟩
  · cases hs : single? c with
    | none =>
      have hstart := startsAtom_of_single?_eq_none hs hq h
      refine ⟨_, _, lexeme?_of_startsAtom hstart rest, ?_, Or.inl ?_⟩
      · simp [TokenKind.text, List.takeWhile_append_dropWhile]
      · exact ⟨c, _, String.toList_ofList, hstart, fun d hd => List.mem_takeWhile_imp hd⟩
    | some kind =>
      obtain ⟨-, -, hkind, htext⟩ := single?_some hs
      rcases lexeme?_of_single? hs rest with hlex | ⟨after, heq, hlex⟩
      · exact ⟨kind, rest, hlex, by rw [htext]; rfl, Or.inl hkind⟩
      · exact ⟨_, after, hlex, by rw [heq]; rfl, Or.inl trivial⟩

/-- Every token of a text is a lexeme or a string without its closing quote. -/
theorem isLexeme_of_mem_kinds {cs : List Char} {kind : TokenKind} (h : kind ∈ kinds cs) :
    IsLexeme kind ∨ ∃ s, kind = .unterminated s := by
  induction hn : cs.length using Nat.strong_induction_on generalizing cs with
  | _ n ih =>
    cases cs with
    | nil => simp at h
    | cons c rest =>
      cases hsep : isSeparator c with
      | true =>
        rw [kinds_cons_of_separator hsep] at h
        exact ih rest.length (by simp [← hn]) h rfl
      | false =>
        obtain ⟨first, after, hlex, -, hfirst⟩ := lexeme?_sound hsep rest
        rw [kinds_of_lexeme? hlex] at h
        rcases List.mem_cons.mp h with rfl | h
        · exact hfirst
        · exact ih after.length (hn ▸ length_lt_of_lexeme? hlex) h rfl

end MatrixLisp.Token
