import Mathlib.Tactic
import MatrixLisp.Proofs.Reader.Continuation
import MatrixLisp.Proofs.Token.Layout

/-!
# What is incomplete and what is wrong

A text that ends inside a bracket or behind a mark is the beginning of a text that is read: a form
and closers complete it, with one more form where a map has a key left over. An error of any other
kind stands whatever follows behind a separator, save that a string without its closing quote may be
closed.
-/
namespace MatrixLisp.Reader

open Token Text

/-- A form whose tokens end too early leaves contexts open. -/
theorem open_of_continueForm {start : Span} {top : Pending} {below : List Pending}
    {taken : List TokenKind} (h : Open (top :: below) taken) {tokens rest : List Token}
    {e : ReadError} (hform : continueForm start top below tokens = (.error e, rest))
    (he : e.code = .unclosedDelimiter) :
    ∃ stack, Open stack (taken ++ tokens.map Token.kind) := by
  induction tokens generalizing top below taken with
  | nil => exact ⟨_, by simpa using h⟩
  | cons t tokens ih =>
    rw [continueForm] at hform
    split at hform
    · rename_i e' herror
      cases hform
      exact absurd he (refused_of_advance herror).decided
    · cases hform
    · rename_i top' below' hadvance
      obtain ⟨stack, hopen⟩ := ih (h.advance hadvance) hform
      exact ⟨stack, by simpa using hopen⟩

/-- Tokens that end too early spell some forms, and the tokens behind these leave contexts open. -/
theorem open_of_readForms {tokens : List Token} {e : ReadError}
    (h : readForms tokens = .error e) (he : e.code = .unclosedDelimiter) :
    ∃ front taken vs stack, tokens.map Token.kind = front ++ taken ∧ Spells front vs ∧
      Open stack taken := by
  fun_induction readForms tokens with
  | case1 => cases h
  | case2 t rest result form hform ih =>
    obtain ⟨used, hused, hdenotes⟩ := readForm_sound (Prod.ext hform rfl)
    cases hrest : readForms result.2 with
    | ok others =>
      rw [hrest] at h
      cases h
    | error e' =>
      rw [hrest] at h
      cases h
      obtain ⟨front, taken, vs, stack, hkinds, hfront, hopen⟩ := ih hrest
      refine ⟨used.map Token.kind ++ front, taken, form.1 :: vs, stack, ?_, .cons hdenotes hfront,
        hopen⟩
      rw [hused, List.map_append, hkinds, List.append_assoc]
  | case3 t rest result e' herror =>
    cases h
    have hform : readForm t rest = (.error e, result.2) := Prod.ext herror rfl
    rw [readForm] at hform
    split at hform
    · rename_i e' hrefused
      obtain ⟨rfl⟩ := Except.error.inj (Prod.mk.inj hform).1
      exact absurd he (refused_of_advance hrefused).decided
    · cases (Prod.mk.inj hform).1
    · rename_i top below hadvance
      obtain ⟨stack, hopen⟩ := open_of_continueForm (Open.nil.advance hadvance) hform he
      exact ⟨[], (t :: rest).map Token.kind, [], stack, rfl, .nil, by simpa using hopen⟩

/-- An atom to fill a gap with. -/
def filler : TokenKind := .atom "a"

theorem isLexeme_filler : IsLexeme filler := ⟨'a', [], rfl, by decide, by simp⟩

theorem denotes_filler : Denotes [filler] (.symbol "a") := .atom (by cbv)

/-- Some brackets need one more form before they are closed. -/
theorem exists_closed (b : Bracket) {parts : Parts} (h : ∀ p ∈ parts, Denotes p.1 p.2) :
    ∃ closing v, (∀ kind ∈ closing, IsLexeme kind) ∧
      Denotes (.opener b :: parts.spelling ++ closing) v := by
  have hcloser : ∀ kind ∈ [.closer b], IsLexeme kind := by simp [IsLexeme]
  cases b with
  | round => exact ⟨_, _, hcloser, .list h⟩
  | square => exact ⟨_, _, hcloser, .vector h⟩
  | curly =>
    by_cases heven : parts.length % 2 = 0
    · exact ⟨_, _, hcloser, .map h heven⟩
    · have hmore : ∀ p ∈ parts ++ [([filler], .symbol "a")], Denotes p.1 p.2 := by
        intro p hp
        rcases List.mem_append.mp hp with hp | hp
        · exact h p hp
        · rw [List.mem_singleton.mp hp]
          exact denotes_filler
      have hclosed := Denotes.map hmore (by simp; omega)
      refine ⟨[filler, .closer .curly], _, ?_, by simpa using hclosed⟩
      simpa [IsLexeme] using isLexeme_filler

/-- Open contexts that are given a form can be closed. -/
theorem Open.exists_completion {stack : List Pending} {taken : List TokenKind}
    (h : Open stack taken) {spelling : List TokenKind} {v : Value} (hv : Denotes spelling v) :
    ∃ closing w, (∀ kind ∈ closing, IsLexeme kind) ∧
      Denotes (taken ++ spelling ++ closing) w := by
  induction h generalizing spelling v with
  | nil => exact ⟨[], v, by simp, by simpa using hv⟩
  | @bracket b opened parts below taken _ hparts ih =>
    have hmore : ∀ p ∈ parts ++ [(spelling, v)], Denotes p.1 p.2 := by
      intro p hp
      rcases List.mem_append.mp hp with hp | hp
      · exact hparts p hp
      · rw [List.mem_singleton.mp hp]
        exact hv
    obtain ⟨closing, w, hclosing, hclosed⟩ := exists_closed b hmore
    obtain ⟨more, w', hmore, hall⟩ := ih hclosed
    refine ⟨closing ++ more, w', ?_, by simpa using hall⟩
    intro kind hkind
    rcases List.mem_append.mp hkind with hkind | hkind
    · exact hclosing kind hkind
    · exact hmore kind hkind
  | mark m span _ ih =>
    obtain ⟨closing, w, hclosing, hall⟩ := ih (Denotes.mark m hv)
    exact ⟨closing, w, hclosing, by simpa using hall⟩

/-- A text that ends too early can be completed. -/
theorem exists_reads_append {source : String} {e : ReadError} (h : readAll source = .error e)
    (he : e.code = .unclosedDelimiter) : ∃ suffix vs, Reads (source ++ suffix) vs := by
  obtain ⟨front, taken, vs, stack, hkinds, hfront, hopen⟩ := open_of_readForms h he
  obtain ⟨closing, w, hclosing, hdenotes⟩ := hopen.exists_completion denotes_filler
  have hspells : Spells (kinds source.toList ++ filler :: closing) (vs ++ [w]) := by
    have hkinds : kinds source.toList = front ++ taken := hkinds
    have hall := hfront.append (.cons hdenotes .nil)
    rw [hkinds]
    simpa using hall
  have hlexemes : ∀ kind ∈ filler :: closing, IsLexeme kind := by
    intro kind hkind
    rcases List.mem_cons.mp hkind with rfl | hkind
    · exact isLexeme_filler
    · exact hclosing kind hkind
  have hclosed : ∀ s, .unterminated s ∉ kinds source.toList := fun s hs =>
    hspells.unterminated_not_mem s (List.mem_append_left _ hs)
  have hblank : isSeparator ' ' = true := by decide
  refine ⟨" " ++ layOut (fun _ => " ") (filler :: closing), vs ++ [w], reads_iff_spells.mpr ?_⟩
  rw [String.toList_append, String.toList_append]
  show Spells (kinds (source.toList ++ ' ' :: (layOut (fun _ => " ") (filler :: closing)).toList)) _
  rw [kinds_append_separator hclosed hblank, kinds_cons_of_separator hblank,
    kinds_layOut_blank hlexemes]
  exact hspells

/-- A text that ends too early is the beginning of a text that is read. A text that is wrong, for a
closer that does not fit, a key left over or a number out of range or with denominator zero, stays
wrong in the same place and for the same reason whatever follows behind a separator. -/
theorem readAll_error_incomplete_or_wrong {source : String} {e : ReadError}
    (h : readAll source = .error e) :
    (e.code = .unclosedDelimiter → ∃ suffix forms, readAll (source ++ suffix) = .ok forms) ∧
    (e.code ∈ [.unexpectedDelimiter, .oddMapEntries, .literalOutOfRange, .zeroDenominator] →
      ∀ suffix c, suffix.toList.head? = some c → isSeparator c = true →
        readAll (source ++ suffix) = .error e) := by
  constructor
  · intro he
    obtain ⟨suffix, vs, hreads⟩ := exists_reads_append h he
    obtain ⟨forms, hforms, -⟩ := hreads.exists_readAll
    exact ⟨suffix, forms, hforms⟩
  · intro he suffix c hhead hc
    obtain ⟨more, hsuffix⟩ := List.head?_eq_some_iff.mp hhead
    have hdecided : e.Decided := by
      intro hcode
      rw [hcode] at he
      simp at he
    have hcode : e.code ≠ .unterminatedString := by
      intro hcode
      rw [hcode] at he
      simp at he
    obtain ⟨used, rest, hused, hterminated, herror⟩ := exists_used_of_readForms h hdecided
    obtain ⟨rest', hrest⟩ := exists_scan_append_separator 0 hused
      (hterminated.resolve_left hcode) hc more
    rw [readAll, tokenize, String.toList_append, hsuffix, hrest]
    exact herror rest'

/-- A missing value is found wrong once its map is closed, also when a string behind it lacks its
closing quote and gets one later. -/
theorem readAll_error_incomplete_or_wrong_odd :
    (∃ suffix forms, readAll ("[(a \x7bb '" ++ suffix) = .ok forms) ∧
      ∀ suffix, readAll ("(\x7ba\x7d \x22b" ++ (" " ++ suffix)) =
        .error ⟨.oddEntries 1, ⟨1, 4⟩, .oddMapEntries⟩ := by
  have hopen : readAll "[(a \x7bb '" = .error ⟨.missingForm .quote, ⟨7, 8⟩, .unclosedDelimiter⟩ := by
    cbv
  have hodd : readAll "(\x7ba\x7d \x22b" =
      .error ⟨.oddEntries 1, ⟨1, 4⟩, .oddMapEntries⟩ := by cbv
  refine ⟨(readAll_error_incomplete_or_wrong hopen).1 rfl, fun suffix => ?_⟩
  exact (readAll_error_incomplete_or_wrong hodd).2 (by simp) _ ' ' (by simp) (by decide)

end MatrixLisp.Reader
