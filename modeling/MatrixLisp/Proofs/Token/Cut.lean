import Mathlib.Tactic
import MatrixLisp.Proofs.Token.Scan

/-!
# Cutting a text between two tokens

A token is decided by its own text and by the character behind it at most, and it never needs that
there is such a character. So a text may be cut behind a token: the part up to there gives the tokens
that it gave before, unless one of them is a string without its closing quote, and the rest gives the
others.
-/
namespace MatrixLisp.Token

open Text

theorem stops_nil (kind : TokenKind) : Stops kind [] := boundary_nil.stops kind

/-- A token is taken also where the text ends earlier behind it. -/
theorem lexeme?_of_append {kind : TokenKind} {after rest : List Char}
    (h : lexeme? (kind.text.toList ++ (after ++ rest)) = some (kind, after ++ rest))
    (hkind : ∀ s, kind ≠ .unterminated s) :
    lexeme? (kind.text.toList ++ after) = some (kind, after) := by
  obtain ⟨-, hlexeme | ⟨s, hs⟩⟩ := text_append_of_lexeme? h
  · rw [lexeme?_text_append_iff hlexeme] at h ⊢
    cases after with
    | nil => exact stops_nil kind
    | cons c after =>
      have hhead : (c :: after ++ rest).head? = (c :: after).head? := rfl
      exact (stops_iff_of_head?_eq hhead kind).mp h
  · exact absurd hs (hkind s)

/-- How the first tokens of a text stand in it: behind separators, in a part of the text that gives
them on its own, and before a rest that gives the others. -/
structure Taken (offset : ℕ) (cs : List Char) (used others : List Token)
    (before text after : List Char) : Prop where
  split : cs = before ++ text ++ after
  separators : ∀ c ∈ before, isSeparator c = true
  start_eq : ∀ t ∈ used.head?, t.span.start = offset + width before
  stop_eq : ∀ t ∈ used.getLast?, t.span.stop = offset + width before + width text
  scan_text : Terminated used → scan (offset + width before) text = used
  scan_after : scan (offset + width before + width text) after = others

namespace Taken

variable {offset : ℕ} {rest : List Char} {used others : List Token} {before text after : List Char}

/-- A separator in front only moves the tokens along. -/
theorem separator {c : Char} (hc : isSeparator c = true)
    (h : Taken (offset + c.utf8Size) rest used others before text after) :
    Taken offset (c :: rest) used others (c :: before) text after := by
  have hoffset : offset + c.utf8Size + width before = offset + width (c :: before) := by
    rw [width_cons, Nat.add_assoc]
  constructor
  · rw [h.split]
    rfl
  · exact List.forall_mem_cons.mpr ⟨hc, h.separators⟩
  · exact hoffset ▸ h.start_eq
  · exact hoffset ▸ h.stop_eq
  · exact hoffset ▸ h.scan_text
  · exact hoffset ▸ h.scan_after

/-- A token alone is taken from its text. -/
theorem single {kind : TokenKind} (hlex : lexeme? (kind.text.toList ++ rest) = some (kind, rest))
    (hsize : offset + kind.text.utf8ByteSize ≤ Span.maxOffset) :
    Taken offset (kind.text.toList ++ rest)
      [⟨kind, .ofRange offset (offset + kind.text.utf8ByteSize)⟩]
      (scan (offset + kind.text.utf8ByteSize) rest) [] kind.text.toList rest := by
  rw [Span.ofRange_eq (by omega) hsize]
  constructor
  · rfl
  · exact nofun
  · rintro _ ⟨⟩
    rfl
  · rintro _ ⟨⟩
    rw [width_toList]
    rfl
  · intro hterminated
    have halone : lexeme? (kind.text.toList ++ []) = some (kind, []) :=
      lexeme?_of_append hlex (hterminated _ List.mem_cons_self)
    rw [List.append_nil] at halone
    rw [width_nil, Nat.add_zero, scan_of_lexeme? halone, scan_nil,
      Span.ofRange_eq (by omega) hsize]
  · rw [width_nil, Nat.add_zero, width_toList]

/-- A token in front belongs to the part of the text as well. -/
theorem lexeme {kind : TokenKind} (hlex : lexeme? (kind.text.toList ++ rest) = some (kind, rest))
    (hsize : offset + kind.text.utf8ByteSize ≤ Span.maxOffset) (hne : used ≠ [])
    (h : Taken (offset + kind.text.utf8ByteSize) rest used others before text after) :
    Taken offset (kind.text.toList ++ rest)
      (⟨kind, .ofRange offset (offset + kind.text.utf8ByteSize)⟩ :: used) others
      [] (kind.text.toList ++ (before ++ text)) after := by
  have hwidth : offset + width [] + width (kind.text.toList ++ (before ++ text)) =
      offset + kind.text.utf8ByteSize + width before + width text := by
    rw [width_nil, width_append, width_append, width_toList]
    omega
  constructor
  · rw [h.split]
    simp
  · exact nofun
  · rintro _ ⟨⟩
    rw [Span.ofRange_eq (by omega) hsize]
    rfl
  · intro t ht
    rw [List.getLast?_cons_of_ne_nil hne] at ht
    rw [hwidth]
    exact h.stop_eq t ht
  · intro hterminated
    have hcut : lexeme? (kind.text.toList ++ (before ++ text)) = some (kind, before ++ text) := by
      rw [h.split] at hlex
      exact lexeme?_of_append hlex (hterminated _ List.mem_cons_self)
    have hused := h.scan_text fun t ht => hterminated t (List.mem_cons_of_mem _ ht)
    rw [width_nil, Nat.add_zero, scan_of_lexeme? hcut, scan_separators _ h.separators, hused]
  · rw [hwidth]
    exact h.scan_after

end Taken

/-- What holds at the end of a text, and is kept in front of it by a separator and by a lexeme, holds
of every text. -/
@[elab_as_elim]
theorem text_induction {motive : ℕ → List Char → Prop} (nil : ∀ offset, motive offset [])
    (separator : ∀ offset c rest, isSeparator c = true →
      motive (offset + c.utf8Size) rest → motive offset (c :: rest))
    (lexeme : ∀ offset kind rest, lexeme? (kind.text.toList ++ rest) = some (kind, rest) →
      motive (offset + kind.text.utf8ByteSize) rest → motive offset (kind.text.toList ++ rest))
    (offset : ℕ) (cs : List Char) : motive offset cs :=
  scan_induction (motive := fun offset cs _ => motive offset cs) nil
    (fun offset c rest _ => separator offset c rest)
    (fun offset kind rest _ => lexeme offset kind rest) offset cs

/-- A token is the lexeme at a place of the text, and the tokens behind it are cut from what is left
there. -/
theorem exists_cut {offset : ℕ} {cs : List Char} {used others : List Token} {t : Token}
    (h : scan offset cs = used ++ t :: others) :
    ∃ before after, cs = before ++ t.kind.text.toList ++ after ∧
      t.span = .ofRange (offset + width before)
        (offset + width before + t.kind.text.utf8ByteSize) ∧
      lexeme? (t.kind.text.toList ++ after) = some (t.kind, after) ∧
      scan (offset + width before + t.kind.text.utf8ByteSize) after = others := by
  induction offset, cs using text_induction generalizing used with
  | nil offset => simp at h
  | separator offset c rest hc ih =>
    rw [scan_cons_of_separator hc] at h
    obtain ⟨before, after, rfl, hspan, hlex, hafter⟩ := ih h
    have hoffset : offset + c.utf8Size + width before = offset + width (c :: before) := by
      rw [width_cons, Nat.add_assoc]
    exact ⟨c :: before, after, by simp, hoffset ▸ hspan, hlex, hoffset ▸ hafter⟩
  | lexeme offset kind rest hlex ih =>
    rw [scan_of_lexeme? hlex] at h
    cases used with
    | nil =>
      obtain ⟨rfl, hothers⟩ := List.cons.inj h
      exact ⟨[], rest, rfl, rfl, hlex, hothers⟩
    | cons u used =>
      obtain ⟨before, after, rfl, hspan, hlex', hafter⟩ := ih (List.cons.inj h).2
      have hoffset : offset + kind.text.utf8ByteSize + width before =
          offset + width (kind.text.toList ++ before) := by
        rw [width_append, width_toList, Nat.add_assoc]
      exact ⟨kind.text.toList ++ before, after, by simp, hoffset ▸ hspan, hlex', hoffset ▸ hafter⟩

/-- A token cuts its text out of a source, and the tokens behind it are cut from what is left there. -/
theorem exists_cut_text {offset : ℕ} {source : String} {used others : List Token} {t : Token}
    (h : scan offset source.toList = used ++ t :: others) :
    ∃ before after, source = before ++ t.kind.text ++ after ∧ t.kind.text ≠ "" ∧
      t.span = .ofRange (offset + before.utf8ByteSize)
        (offset + (before ++ t.kind.text).utf8ByteSize) ∧
      scan (offset + (before ++ t.kind.text).utf8ByteSize) after.toList = others := by
  obtain ⟨before, after, hsplit, hspan, hlex, hafter⟩ := exists_cut h
  have hsource := congrArg String.ofList hsplit
  rw [String.ofList_toList, String.ofList_append, String.ofList_append, String.ofList_toList]
    at hsource
  have hend : offset + (String.ofList before ++ t.kind.text).utf8ByteSize =
      offset + width before + t.kind.text.utf8ByteSize := by
    rw [String.utf8ByteSize_append, width, Nat.add_assoc]
  refine ⟨String.ofList before, String.ofList after, hsource, ?_, ?_, ?_⟩
  · intro hempty
    have hpos := width_pos_of_lexeme? hlex
    rw [hempty] at hpos
    exact lt_irrefl _ hpos
  · rw [hend, hspan, width]
  · rw [hend, String.toList_ofList, hafter]

/-- The first tokens of a text, at least one, are taken from a part of it. -/
theorem exists_taken {offset : ℕ} {cs : List Char} {used others : List Token}
    (h : scan offset cs = used ++ others) (hne : used ≠ [])
    (hsize : offset + width cs ≤ Span.maxOffset) :
    ∃ before text after, Taken offset cs used others before text after := by
  induction offset, cs using text_induction generalizing used with
  | nil offset =>
    rw [scan_nil] at h
    exact absurd (List.append_eq_nil_iff.mp h.symm).1 hne
  | separator offset c rest hc ih =>
    rw [scan_cons_of_separator hc] at h
    rw [width_cons] at hsize
    obtain ⟨before, text, after, htaken⟩ := ih h hne (by omega)
    exact ⟨c :: before, text, after, htaken.separator hc⟩
  | lexeme offset kind rest hlex ih =>
    rw [scan_of_lexeme? hlex] at h
    rw [width_append, width_toList] at hsize
    cases used with
    | nil => exact absurd rfl hne
    | cons t used =>
      obtain ⟨rfl, htokens⟩ := List.cons.inj h
      by_cases hused : used = []
      · subst hused
        obtain rfl : scan (offset + kind.text.utf8ByteSize) rest = others := htokens
        exact ⟨[], kind.text.toList, rest, .single hlex (by omega)⟩
      · obtain ⟨before, text, after, htaken⟩ := ih htokens hused (by omega)
        exact ⟨[], _, after, htaken.lexeme hlex (by omega) hused⟩

end MatrixLisp.Token
