import Mathlib.Tactic
import MatrixLisp.Proofs.Token.Lexeme

/-!
# Scanning step by step

A scan passes a separator or takes a lexeme, and goes on behind it. What holds of the end of a text
and is kept by both steps holds of every scan. In particular a separator cuts a scan in two, unless
a string before it lacks its closing quote.
-/
namespace MatrixLisp.Token

open Text

/-- The number of bytes that characters take. -/
def width (cs : List Char) : ℕ := (String.ofList cs).utf8ByteSize

@[simp] theorem width_nil : width [] = 0 := rfl

@[simp] theorem width_cons (c : Char) (cs : List Char) :
    width (c :: cs) = c.utf8Size + width cs := by
  rw [width, String.ofList_cons, String.utf8ByteSize_append, String.utf8ByteSize_singleton, width]

@[simp] theorem width_append (cs ds : List Char) : width (cs ++ ds) = width cs + width ds := by
  rw [width, String.ofList_append, String.utf8ByteSize_append, width, width]

@[simp] theorem width_toList (s : String) : width s.toList = s.utf8ByteSize := by
  rw [width, String.ofList_toList]

theorem width_pos {cs : List Char} (h : cs ≠ []) : 0 < width cs := by
  cases cs with
  | nil => exact absurd rfl h
  | cons c cs =>
    rw [width_cons]
    exact Nat.add_pos_left c.utf8Size_pos _

/-- What a lexeme is taken from is its text and what is left. -/
theorem text_append_of_lexeme? {cs after : List Char} {kind : TokenKind}
    (h : lexeme? cs = some (kind, after)) :
    kind.text.toList ++ after = cs ∧ (IsLexeme kind ∨ ∃ s, kind = .unterminated s) := by
  cases cs with
  | nil => cases h
  | cons c rest =>
    cases hsep : isSeparator c with
    | true =>
      rw [lexeme?_of_separator hsep] at h
      cases h
    | false =>
      obtain ⟨kind', after', hlex, htext, hkind⟩ := lexeme?_sound hsep rest
      rw [h] at hlex
      cases hlex
      exact ⟨htext, hkind⟩

/-- A lexeme takes at least one byte. -/
theorem width_pos_of_lexeme? {kind : TokenKind} {after : List Char}
    (h : lexeme? (kind.text.toList ++ after) = some (kind, after)) :
    0 < width kind.text.toList := by
  apply width_pos
  intro hempty
  have hshort := length_lt_of_lexeme? h
  rw [hempty] at hshort
  exact lt_irrefl _ hshort

/-- A lexeme is taken only where it ends. -/
theorem stops_of_lexeme? {kind : TokenKind} {after : List Char}
    (h : lexeme? (kind.text.toList ++ after) = some (kind, after)) : Stops kind after := by
  obtain ⟨-, hlexeme | ⟨s, rfl⟩⟩ := text_append_of_lexeme? h
  · exact (lexeme?_text_append_iff hlexeme after).mp h
  · trivial

/-- What holds at the end of a text, and is kept by passing a separator and by taking a lexeme,
holds of every scan. -/
@[elab_as_elim]
theorem scan_induction {motive : ℕ → List Char → List Token → Prop}
    (nil : ∀ offset, motive offset [] [])
    (separator : ∀ offset c rest tokens, isSeparator c = true →
      motive (offset + c.utf8Size) rest tokens → motive offset (c :: rest) tokens)
    (lexeme : ∀ offset kind after tokens,
      lexeme? (kind.text.toList ++ after) = some (kind, after) →
      motive (offset + kind.text.utf8ByteSize) after tokens →
      motive offset (kind.text.toList ++ after)
        (⟨kind, .ofRange offset (offset + kind.text.utf8ByteSize)⟩ :: tokens))
    (offset : ℕ) (cs : List Char) : motive offset cs (scan offset cs) := by
  induction hn : cs.length using Nat.strong_induction_on generalizing offset cs with
  | _ n ih =>
    cases cs with
    | nil =>
      rw [scan_nil]
      exact nil offset
    | cons c rest =>
      cases hsep : isSeparator c with
      | true =>
        rw [scan_cons_of_separator hsep]
        exact separator _ _ _ _ hsep (ih rest.length (by simp [← hn]) _ _ rfl)
      | false =>
        obtain ⟨kind, after, hlex, htext, -⟩ := lexeme?_sound hsep rest
        have hshort := length_lt_of_lexeme? hlex
        rw [scan_of_lexeme? hlex]
        rw [← htext] at hlex ⊢
        exact lexeme _ _ _ _ hlex (ih after.length (hn ▸ hshort) _ _ rfl)

/-- Separators at the start of a text only move its tokens along. -/
theorem scan_separators (offset : ℕ) {cs : List Char} (h : ∀ c ∈ cs, isSeparator c = true)
    (rest : List Char) : scan offset (cs ++ rest) = scan (offset + width cs) rest := by
  induction cs generalizing offset with
  | nil => simp
  | cons c cs ih =>
    rw [List.cons_append, scan_cons_of_separator (h c (by simp)), ih _ fun d hd => h d (by simp [hd]),
      width_cons, Nat.add_assoc]

/-- A separator behind the text that a lexeme is taken from does not change the lexeme, unless it is
a string without its closing quote. -/
theorem lexeme?_append_separator {cs after : List Char} {kind : TokenKind}
    (h : lexeme? cs = some (kind, after)) (hkind : ∀ s, kind ≠ .unterminated s) {c : Char}
    (hc : isSeparator c = true) (rest : List Char) :
    lexeme? (cs ++ c :: rest) = some (kind, after ++ c :: rest) := by
  obtain ⟨rfl, hlexeme | ⟨s, hs⟩⟩ := text_append_of_lexeme? h
  · rw [List.append_assoc, lexeme?_text_append_iff hlexeme]
    cases after with
    | nil =>
      apply Boundary.stops
      exact boundary_cons (by simp [continuesAtom, hc]) rest
    | cons d after =>
      refine (stops_iff_of_head?_eq ?_ kind).mp (stops_of_lexeme? h)
      rfl
  · exact absurd hs (hkind s)

/-- A separator cuts a scan in two, unless a string before it lacks its closing quote. -/
theorem scan_append_separator (offset : ℕ) {cs : List Char}
    (h : ∀ s, .unterminated s ∉ kinds cs) {c : Char} (hc : isSeparator c = true)
    (rest : List Char) :
    scan offset (cs ++ c :: rest) = scan offset cs ++ scan (offset + width cs) (c :: rest) := by
  rw [← map_kind_scan offset] at h
  induction offset, cs using scan_induction with
  | nil offset => simp
  | separator offset d ds tokens hd ih =>
    rw [List.cons_append, scan_cons_of_separator hd, ih h, width_cons, Nat.add_assoc]
  | lexeme offset kind after tokens hlex ih =>
    have hkind : ∀ s, kind ≠ .unterminated s := by
      rintro s rfl
      exact h s (by simp)
    have hmore := lexeme?_append_separator hlex hkind hc rest
    have htokens : ∀ s, .unterminated s ∉ tokens.map Token.kind := fun s hs => h s (by simp [hs])
    rw [scan_of_lexeme? hmore, ih htokens, width_append, width_toList, Nat.add_assoc]
    rfl

theorem kinds_append_separator {cs : List Char} (h : ∀ s, .unterminated s ∉ kinds cs) {c : Char}
    (hc : isSeparator c = true) (rest : List Char) :
    kinds (cs ++ c :: rest) = kinds cs ++ kinds (c :: rest) := by
  rw [kinds, scan_append_separator 0 h hc, List.map_append, map_kind_scan, map_kind_scan]

/-- No token is a string without its closing quote. -/
def Terminated (tokens : List Token) : Prop := ∀ t ∈ tokens, ∀ s, t.kind ≠ .unterminated s

theorem Terminated.append {tokens more : List Token} (h : Terminated tokens)
    (hmore : Terminated more) : Terminated (tokens ++ more) := by
  intro t ht
  rcases List.mem_append.mp ht with ht | ht
  · exact h t ht
  · exact hmore t ht

/-- A separator and what follows it do not change the tokens before the first string that lacks its
closing quote. -/
theorem exists_scan_append_separator (offset : ℕ) {cs : List Char} {used rest : List Token}
    (h : scan offset cs = used ++ rest) (hused : Terminated used) {c : Char}
    (hc : isSeparator c = true) (more : List Char) :
    ∃ rest', scan offset (cs ++ c :: more) = used ++ rest' := by
  induction offset, cs using scan_induction generalizing used with
  | nil offset =>
    obtain ⟨rfl, -⟩ := List.append_eq_nil_iff.mp h.symm
    exact ⟨_, rfl⟩
  | separator offset d ds tokens hd ih =>
    obtain ⟨rest', hrest⟩ := ih h hused
    exact ⟨rest', by rw [List.cons_append, scan_cons_of_separator hd, hrest]⟩
  | lexeme offset kind after tokens hlex ih =>
    cases used with
    | nil => exact ⟨_, rfl⟩
    | cons t used =>
      obtain ⟨rfl, htokens⟩ := List.cons.inj h
      have hkind : ∀ s, kind ≠ .unterminated s := hused _ List.mem_cons_self
      have hmore := lexeme?_append_separator hlex hkind hc more
      obtain ⟨rest', hrest⟩ := ih htokens fun t ht => hused t (List.mem_cons_of_mem _ ht)
      exact ⟨rest', by rw [scan_of_lexeme? hmore, hrest, List.cons_append]⟩

end MatrixLisp.Token
