import Mathlib.Tactic
import MatrixLisp.Proofs.Reader.Resumption
import MatrixLisp.Proofs.Reader.Shapes
import MatrixLisp.Proofs.Reader.Spans

/-!
# What an error blames

A read error points to the token that cannot be read, to a map with a key left over, or to what the
end of the source leaves open. Which opener is still open is told by the brackets alone, without
regard to forms and marks: an opener opens, and a closer closes the innermost one. The contexts on the
stack of the reader are these openers and, on top, the mark that was read last.
-/
namespace MatrixLisp

/-- The kind of the failures that are reported under a code while reading. -/
def ErrorCode.readingKind : ErrorCode → ErrorKind
  | .literalOutOfRange => .outOfRange
  | .zeroDenominator => .divisionByZero
  | _ => .malformed

namespace Reader

open Token

/-! ## Unclosed openers -/

/-- Keeps account of one more token: an opener opens, a closer closes the innermost opener. -/
def track (opened : List Token) (t : Token) : List Token :=
  match t.kind with
  | .opener _ => t :: opened
  | .closer _ => opened.tail
  | _ => opened

/-- The openers among some tokens that none of them closes, the innermost one first. -/
def unclosed (tokens : List Token) : List Token := tokens.foldl track []

theorem unclosed_concat (tokens : List Token) (t : Token) :
    unclosed (tokens ++ [t]) = track (unclosed tokens) t := by
  rw [unclosed, List.foldl_append]
  rfl

theorem mem_of_mem_unclosed {tokens : List Token} {o : Token} (h : o ∈ unclosed tokens) :
    o ∈ tokens := by
  induction tokens using List.reverseRecOn with
  | nil => exact h
  | append_singleton tokens t ih =>
    rw [unclosed_concat] at h
    rw [List.mem_append, List.mem_singleton]
    unfold track at h
    split at h
    · rcases List.mem_cons.mp h with rfl | h
      · exact Or.inr rfl
      · exact Or.inl (ih h)
    · exact Or.inl (ih (List.mem_of_mem_tail h))
    · exact Or.inl (ih h)

/-- The last of some tokens is a mark. -/
def EndsWithMark (tokens : List Token) : Prop := ∃ t ∈ tokens.getLast?, ∃ m, t.kind = .mark m

/-! ## Contexts and openers -/

/-- The opener of a context. -/
def Pending.opener? : Pending → Option Token
  | .bracket b opened _ => some ⟨.opener b, opened⟩
  | .mark _ _ => none

/-- The contexts on a stack are the unclosed openers among the tokens that were taken, and a mark on top
of it is the last of these tokens. -/
structure Tracks (stack : List Pending) (taken : List Token) : Prop where
  openers : unclosed taken = stack.filterMap Pending.opener?
  mark : ∀ m span, stack.head? = some (.mark m span) ↔ taken.getLast? = some ⟨.mark m, span⟩

theorem tracks_nil : Tracks [] [] := ⟨rfl, by simp⟩

/-- A value that is delivered leaves the brackets open and stops at one of them. -/
theorem deliver_waiting {v : Value} {stack below : List Pending} {top : Pending}
    (h : deliver v stack = .waiting top below) :
    (top :: below).filterMap Pending.opener? = stack.filterMap Pending.opener? ∧
      ∀ m span, top ≠ .mark m span := by
  induction stack generalizing v with
  | nil => cases h
  | cons p stack ih =>
    cases p with
    | bracket b opened items =>
      cases h
      exact ⟨rfl, nofun⟩
    | mark m span => exact ih h

theorem Tracks.deliver {stack below : List Pending} {top : Pending} {taken : List Token} {t : Token}
    {v : Value} (hopeners : unclosed (taken ++ [t]) = stack.filterMap Pending.opener?)
    (ht : ∀ m, t.kind ≠ .mark m) (h : deliver v stack = .waiting top below) :
    Tracks (top :: below) (taken ++ [t]) := by
  obtain ⟨hsame, htop⟩ := deliver_waiting h
  refine ⟨hopeners.trans hsame.symm, fun m span => iff_of_false ?_ ?_⟩
  · exact fun hhead => htop m span (Option.some.inj hhead)
  · rw [List.getLast?_concat]
    rintro ⟨⟩
    exact ht m rfl

/-- Taking a token in keeps account of the brackets. -/
theorem Tracks.advance {stack below : List Pending} {top : Pending} {taken : List Token} {t : Token}
    (h : Tracks stack taken) (hadvance : advance stack t = .ok (.waiting top below)) :
    Tracks (top :: below) (taken ++ [t]) := by
  have hconcat := unclosed_concat taken t
  rw [h.openers] at hconcat
  obtain ⟨kind, span⟩ := t
  cases kind with
  | opener b =>
    cases hadvance
    exact ⟨hconcat, fun m span => by simp⟩
  | mark m =>
    cases hadvance
    exact ⟨hconcat, fun m' span' => by simp⟩
  | closer b =>
    cases stack with
    | nil => cases hadvance
    | cons p stack =>
      cases p with
      | mark => cases hadvance
      | bracket b' opened items =>
        simp only [Reader.advance, close] at hadvance
        split_ifs at hadvance
        cases hv : assemble b (opened.cover (.point span.stop)) items.reverse with
        | error e =>
          rw [hv] at hadvance
          cases hadvance
        | ok v =>
          rw [hv] at hadvance
          exact .deliver hconcat nofun (Except.ok.inj hadvance)
  | caret => exact .deliver hconcat nofun (Except.ok.inj hadvance)
  | semicolon => exact .deliver hconcat nofun (Except.ok.inj hadvance)
  | string s => exact .deliver hconcat nofun (Except.ok.inj hadvance)
  | unterminated s => cases hadvance
  | unmatched s => cases hadvance
  | atom s =>
    cases hs : Literal.classify s with
    | ok v =>
      simp only [Reader.advance, hs] at hadvance
      exact .deliver hconcat nofun (Except.ok.inj hadvance)
    | error f =>
      simp only [Reader.advance, hs] at hadvance
      cases hadvance

/-- A closer that is refused although the innermost context is a bracket is of another shape. -/
theorem ne_bracket_of_close {b : Bracket} {span : Span} {stack : List Pending}
    (h : close b span stack = .error ⟨.unexpectedCloser b, span, .unexpectedDelimiter⟩)
    (opened : Span) (items : List Value) (below : List Pending) :
    stack ≠ .bracket b opened items :: below := by
  rintro rfl
  rw [close, if_pos rfl] at h
  cases b with
  | round => cases h
  | square => cases h
  | curly =>
    rw [assemble] at h
    split_ifs at h <;> cases h

/-- A closer that stands where it closes nothing: right behind a mark, or where the innermost unclosed
opener is of another shape or missing. -/
def Misplaced (taken : List Token) (b : Bracket) : Prop :=
  EndsWithMark taken ∨ (unclosed taken).head?.map Token.kind ≠ some (.opener b)

theorem Tracks.misplaced {stack : List Pending} {taken : List Token} (h : Tracks stack taken)
    {b : Bracket} (hstack : ∀ opened items below, stack ≠ .bracket b opened items :: below) :
    Misplaced taken b := by
  cases stack with
  | nil =>
    refine Or.inr ?_
    rw [h.openers]
    exact nofun
  | cons p stack =>
    cases p with
    | mark m span => exact Or.inl ⟨_, (h.mark m span).mp rfl, m, rfl⟩
    | bracket b' opened items =>
      refine Or.inr ?_
      rw [h.openers]
      rintro ⟨⟩
      exact hstack opened items stack rfl

/-! ## Errors -/

/-- What an error tells of the tokens that its call has taken, with those that are left: which of them
it blames and why. -/
inductive Blames (taken rest : List Token) : ReadError → Prop
  /-- The last token that was taken is a string without its closing quote. -/
  | string {before : List Token} {t : Token} {s : String} : taken = before ++ [t] →
      t.kind = .unterminated s →
      Blames taken rest ⟨.unterminatedString, t.span, .unterminatedString⟩
  /-- The last token that was taken is a closer that closes nothing. -/
  | closer {before : List Token} {t : Token} {b : Bracket} : taken = before ++ [t] →
      t.kind = .closer b → Misplaced before b →
      Blames taken rest ⟨.unexpectedCloser b, t.span, .unexpectedDelimiter⟩
  /-- The last token that was taken is a literal whose value does not fit. -/
  | range {before : List Token} {t : Token} {s : String} {f : Fault} : taken = before ++ [t] →
      t.kind = .atom s → Literal.classify s = .error f → f.kind = .outOfRange →
      Blames taken rest ⟨f, t.span, .literalOutOfRange⟩
  /-- The last token that was taken is a fraction with the denominator zero. -/
  | denominator {before : List Token} {t : Token} {s : String} {f : Fault} : taken = before ++ [t] →
      t.kind = .atom s → Literal.classify s = .error f → f.kind = .divisionByZero →
      Blames taken rest ⟨f, t.span, .zeroDenominator⟩
  /-- The last token that was taken closes a map with an odd number of forms. -/
  | map {before : List Token} {opener closer : Token} {forms : ℕ} : taken = before ++ [closer] →
      (unclosed before).head? = some opener → opener.kind = .opener .curly →
      closer.kind = .closer .curly → forms % 2 = 1 →
      Blames taken rest
        ⟨.oddEntries forms, ⟨opener.span.start, closer.span.stop⟩, .oddMapEntries⟩
  /-- At the end of the source the opener is the innermost one that is not closed. -/
  | bracket {opener : Token} {b : Bracket} : rest = [] → (unclosed taken).head? = some opener →
      opener.kind = .opener b → ¬EndsWithMark taken →
      Blames taken rest ⟨.unclosed b, opener.span, .unclosedDelimiter⟩
  /-- The last token of the source is a mark. -/
  | mark {before : List Token} {t : Token} {m : Mark} : rest = [] → taken = before ++ [t] →
      t.kind = .mark m → Blames taken rest ⟨.missingForm m, t.span, .unclosedDelimiter⟩

/-- Tokens of a source: all of them match a pattern, and none stops behind a later one. -/
structure Regular (tokens : List Token) : Prop where
  matched : ∀ t ∈ tokens, ∀ s, t.kind ≠ .unmatched s
  ascending : tokens.Pairwise fun o c => o.span.start ≤ c.span.stop ∧ o.span.stop ≤ c.span.stop

theorem Regular.left {tokens more : List Token} (h : Regular (tokens ++ more)) : Regular tokens :=
  ⟨fun t ht => h.matched t (List.mem_append_left more ht), (List.pairwise_append.mp h.ascending).1⟩

theorem Regular.right {tokens more : List Token} (h : Regular (tokens ++ more)) : Regular more :=
  ⟨fun t ht => h.matched t (List.mem_append_right tokens ht),
    (List.pairwise_append.mp h.ascending).2.1⟩

theorem Regular.cover {before : List Token} {closer : Token} (h : Regular (before ++ [closer]))
    {opener : Token} (hopener : opener ∈ before) :
    opener.span.cover (.point closer.span.stop) = ⟨opener.span.start, closer.span.stop⟩ := by
  obtain ⟨-, -, hlast⟩ := List.pairwise_append.mp h.ascending
  obtain ⟨hstart, hstop⟩ := hlast opener hopener closer (List.mem_singleton_self closer)
  exact cover_point_of_le hstart hstop

/-- A token that is refused is blamed, if not the map that it closes. -/
theorem Tracks.blames {stack : List Pending} {taken : List Token} {t : Token} {e : ReadError}
    (h : Tracks stack taken) (hregular : Regular (taken ++ [t]))
    (hadvance : Reader.advance stack t = .error e) (rest : List Token) :
    Blames (taken ++ [t]) rest e := by
  cases refused_of_advance hadvance with
  | @closer b hb =>
    rw [Reader.advance, hb] at hadvance
    exact .closer rfl hb (h.misplaced (ne_bracket_of_close hadvance))
  | @odd opened items below hstack hb hodd =>
    have hhead : (unclosed taken).head? = some ⟨.opener .curly, opened⟩ := by
      rw [h.openers, hstack]
      rfl
    have hspan := hregular.cover (mem_of_mem_unclosed (List.mem_of_head? hhead))
    rw [hspan]
    exact .map rfl hhead rfl hb (Nat.mod_two_ne_zero.mp hodd)
  | unterminated hs => exact .string rfl hs
  | unmatched hs => exact absurd hs (hregular.matched t (by simp) _)
  | @atom s f hs hf =>
    rcases Literal.kind_of_classify hf with hkind | hkind
    · have hcode : literalCode f = .literalOutOfRange := by rw [literalCode, hkind]
      rw [hcode]
      exact .range rfl hs hf hkind
    · have hcode : literalCode f = .zeroDenominator := by rw [literalCode, hkind]
      rw [hcode]
      exact .denominator rfl hs hf hkind

/-- At the end of the source the innermost context is blamed. -/
theorem Tracks.blames_unfinished {top : Pending} {below : List Pending} {taken : List Token}
    (h : Tracks (top :: below) taken) : Blames taken [] (unfinished top) := by
  cases top with
  | bracket b opened items =>
    have hhead : (unclosed taken).head? = some ⟨.opener b, opened⟩ := by
      rw [h.openers]
      rfl
    refine .bracket rfl hhead rfl ?_
    rintro ⟨⟨kind, span⟩, hlast, m, rfl⟩
    cases (h.mark m span).mpr hlast
  | mark m span =>
    obtain ⟨before, rfl⟩ := List.getLast?_eq_some_iff.mp ((h.mark m span).mp rfl)
    exact .mark (t := ⟨.mark m, span⟩) rfl rfl rfl

theorem blames_of_continueForm {start : Span} {top : Pending} {below : List Pending}
    {taken tokens rest : List Token} {e : ReadError} (h : Tracks (top :: below) taken)
    (hregular : Regular (taken ++ tokens))
    (hform : continueForm start top below tokens = (.error e, rest)) :
    ∃ used, tokens = used ++ rest ∧ Blames (taken ++ used) rest e := by
  induction tokens generalizing top below taken with
  | nil =>
    cases hform
    exact ⟨[], rfl, by simpa using h.blames_unfinished⟩
  | cons t tokens ih =>
    rw [List.append_cons] at hregular
    rw [continueForm] at hform
    split at hform
    · rename_i herror
      cases hform
      exact ⟨[t], rfl, h.blames hregular.left herror _⟩
    · cases hform
    · rename_i hadvance
      obtain ⟨used, rfl, hblames⟩ := ih (h.advance hadvance) hregular hform
      exact ⟨t :: used, rfl, by simpa using hblames⟩

theorem blames_of_readForm {t : Token} {tokens rest : List Token} {e : ReadError}
    (hregular : Regular (t :: tokens)) (hform : readForm t tokens = (.error e, rest)) :
    ∃ used, tokens = used ++ rest ∧ Blames (t :: used) rest e := by
  have hregular : Regular ([t] ++ tokens) := hregular
  rw [readForm] at hform
  split at hform
  · rename_i herror
    cases hform
    exact ⟨[], rfl, tracks_nil.blames hregular.left herror _⟩
  · cases hform
  · rename_i hadvance
    exact blames_of_continueForm (tracks_nil.advance hadvance) hregular hform

/-! ## Places -/

/-- A span that cuts a text out of a source, as far as spans can hold its offsets. -/
def Cuts (source : String) (s : Span) : Prop :=
  ∃ before text after, source = before ++ text ++ after ∧ text ≠ "" ∧
    s = .ofRange before.utf8ByteSize (before ++ text).utf8ByteSize

theorem Cuts.within {source : String} {s : Span} (h : Cuts source s)
    (hsize : source.utf8ByteSize ≤ Span.maxOffset) :
    s.start < s.stop ∧ s.stop ≤ source.utf8ByteSize := by
  obtain ⟨before, text, after, rfl, htext, rfl⟩ := h
  have hpos : text.utf8ByteSize ≠ 0 := mt String.utf8ByteSize_eq_zero_iff.mp htext
  rw [String.utf8ByteSize_append, String.utf8ByteSize_append] at hsize
  rw [String.utf8ByteSize_append, Span.ofRange_eq (by omega) (by omega),
    String.utf8ByteSize_append, String.utf8ByteSize_append]
  constructor
  · show before.utf8ByteSize < before.utf8ByteSize + text.utf8ByteSize
    omega
  · show before.utf8ByteSize + text.utf8ByteSize ≤ _
    omega

/-- From the start of a token to the end of a token that is not before it, a text is cut out. -/
theorem cuts_between {source : String} {front back : List Token} {o c : Token}
    (h : tokenize source = front ++ o :: back) (hc : c ∈ o :: back) :
    Cuts source ⟨o.span.start, c.span.stop⟩ := by
  obtain ⟨before, after, hsource, htext, ho, hafter⟩ := exists_cut_text h
  rw [Nat.zero_add] at hafter
  rw [Nat.zero_add, Nat.zero_add] at ho
  rcases List.mem_cons.mp hc with rfl | hc
  · exact ⟨before, c.kind.text, after, hsource, htext, ho⟩
  · obtain ⟨used, others, rfl⟩ := List.append_of_mem hc
    obtain ⟨gap, rest, rfl, hlast, hspan, -⟩ := exists_cut_text hafter
    have hend : (before ++ (o.kind.text ++ (gap ++ c.kind.text))).utf8ByteSize =
        (before ++ o.kind.text).utf8ByteSize + (gap ++ c.kind.text).utf8ByteSize := by
      rw [← String.append_assoc, String.utf8ByteSize_append]
    refine ⟨before, o.kind.text ++ (gap ++ c.kind.text), rest, ?_, ?_, ?_⟩
    · rw [hsource]
      simp only [String.append_assoc]
    · intro hempty
      exact htext (String.append_eq_empty_iff.mp hempty).1
    · rw [hend, ho, hspan]
      rfl

/-- What an error blames reaches from a token that its call has taken to one that is not before it. -/
theorem Blames.exists_tokens {taken rest : List Token} {e : ReadError} (h : Blames taken rest e) :
    ∃ front o back, ∃ c ∈ o :: back, taken = front ++ o :: back ∧
      e.span = ⟨o.span.start, c.span.stop⟩ := by
  have hsingle : ∀ t ∈ taken, ∃ front o back, ∃ c ∈ o :: back, taken = front ++ o :: back ∧
      t.span = ⟨o.span.start, c.span.stop⟩ := by
    intro t ht
    obtain ⟨front, back, hsplit⟩ := List.append_of_mem ht
    exact ⟨front, t, back, t, List.mem_cons_self, hsplit, rfl⟩
  cases h with
  | @map before opener closer forms htaken hhead =>
    obtain ⟨front, back, rfl⟩ := List.append_of_mem (mem_of_mem_unclosed (List.mem_of_head? hhead))
    exact ⟨front, opener, back ++ [closer], closer, by simp, by simp [htaken], rfl⟩
  | bracket _ hhead => exact hsingle _ (mem_of_mem_unclosed (List.mem_of_head? hhead))
  | mark _ htaken => exact hsingle _ (by simp [htaken])
  | string htaken => exact hsingle _ (by simp [htaken])
  | closer htaken => exact hsingle _ (by simp [htaken])
  | range htaken => exact hsingle _ (by simp [htaken])
  | denominator htaken => exact hsingle _ (by simp [htaken])

theorem Blames.code {taken rest : List Token} {e : ReadError} (h : Blames taken rest e) :
    e.fault.kind = e.code.readingKind ∧ e.code ≠ .unexpectedCharacter := by
  cases h with
  | range _ _ _ hkind => exact ⟨hkind, nofun⟩
  | denominator _ _ _ hkind => exact ⟨hkind, nofun⟩
  | _ => exact ⟨rfl, nofun⟩

theorem regular_tokenize (source : String) : Regular (tokenize source) := by
  constructor
  · rintro t ht s hs
    rcases isLexeme_of_mem_kinds (List.mem_map_of_mem ht) with hlexeme | ⟨s', hs'⟩
    · rw [hs] at hlexeme
      exact hlexeme
    · rw [hs] at hs'
      cases hs'
  · refine (scan_ordered 0 source.toList).1.imp_of_mem ?_
    intro o c ho hc hle
    have hostart := start_le_stop_of_mem_scan ho
    have hcstart := start_le_stop_of_mem_scan hc
    omega

namespace Parser

/-- Errors are truthful: whatever the source and however many calls came before, the kind of an error is
that of its code, which is never the one of an unexpected character; the error blames a token or a
bracket that its own call has taken; and its span cuts the text of what it blames out of the source. -/
theorem error_truthful {source : String} {n : ℕ} {e : ReadError}
    (h : (ofSource source).result n = some (.error e)) :
    e.fault.kind = e.code.readingKind ∧ e.code ≠ .unexpectedCharacter ∧
    (∃ taken, ((ofSource source).after n).tokens =
        taken ++ ((ofSource source).after n).next.2.tokens ∧
      Blames taken ((ofSource source).after n).next.2.tokens e) ∧
    Cuts source e.span ∧
    (source.utf8ByteSize ≤ Span.maxOffset →
      e.span.start < e.span.stop ∧ e.span.stop ≤ source.utf8ByteSize) := by
  obtain ⟨earlier, hearlier⟩ := (ofSource source).after_suffix n
  have htokens : earlier ++ ((ofSource source).after n).tokens = tokenize source := hearlier
  have hresult : ((ofSource source).after n).next.1 = some (.error e) := h
  generalize (ofSource source).after n = p at hresult htokens ⊢
  cases hp : p.tokens with
  | nil =>
    rw [next_nil hp] at hresult
    cases hresult
  | cons t rest =>
    rw [hp] at htokens
    obtain ⟨hfirst, hleft⟩ := next_eq hp
    rw [hfirst] at hresult
    have hregular : Regular (t :: rest) := (htokens ▸ regular_tokenize source).right
    obtain ⟨used, hused, hblames⟩ := blames_of_readForm hregular
      (Prod.ext (Option.some.inj hresult) hleft.symm)
    obtain ⟨front, o, back, c, hc, htaken, hspan⟩ := hblames.exists_tokens
    have hsplit : tokenize source = (earlier ++ front) ++ o :: (back ++ p.next.2.tokens) := by
      rw [← htokens, hused, ← List.cons_append, htaken]
      simp
    have hcuts : Cuts source e.span :=
      hspan ▸ cuts_between hsplit (List.mem_append_left p.next.2.tokens hc)
    exact ⟨hblames.code.1, hblames.code.2, ⟨t :: used, by rw [hused]; rfl, hblames⟩, hcuts,
      hcuts.within⟩

/-- Behind a stray closer, a call ends inside a map: the list and the marked form in the map are
complete, and the vector around the map is not the innermost bracket. -/
theorem error_truthful_unclosed :
    (ofSource ") [(é) \x7b'x (b)").result 1 =
      some (.error ⟨.unclosed .curly, ⟨8, 9⟩, .unclosedDelimiter⟩) ∧
    (∃ taken, Blames taken [] ⟨.unclosed .curly, ⟨8, 9⟩, .unclosedDelimiter⟩) ∧
    Cuts ") [(é) \x7b'x (b)" ⟨8, 9⟩ := by
  have hresult : (ofSource ") [(é) \x7b'x (b)").result 1 =
      some (.error ⟨.unclosed .curly, ⟨8, 9⟩, .unclosedDelimiter⟩) := by cbv
  have hleft : ((ofSource ") [(é) \x7b'x (b)").after 1).next.2.tokens = [] := by cbv
  obtain ⟨-, -, ⟨taken, -, hblames⟩, hcuts, -⟩ := error_truthful hresult
  rw [hleft] at hblames
  exact ⟨hresult, ⟨taken, hblames⟩, hcuts⟩

example : (ofSource "[{(x y)}] {}").result 0 =
    some (.error ⟨.oddEntries 1, ⟨1, 8⟩, .oddMapEntries⟩) := by cbv

end Parser

end Reader

end MatrixLisp
