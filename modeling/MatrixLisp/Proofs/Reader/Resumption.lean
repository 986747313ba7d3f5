import Mathlib.Tactic
import MatrixLisp.Proofs.Reader.Descent
import MatrixLisp.Proofs.Reader.Shift
import MatrixLisp.Proofs.Token.MaximalMunch

/-!
# Reading on after an error

Every call of a parser takes a token at least, so that there are no more results than tokens. A result
lies behind all that was taken before its call. What a call leaves behind, also one that fails deep
inside brackets, is read as it would be read at the start of a source: nothing is remembered.
-/
namespace MatrixLisp.Reader

open Token

/-- Where a form or the error in its place stands. -/
def place : Except ReadError Form → Span
  | .ok form => form.2
  | .error e => e.span

theorem place_moveResult (f : ℕ → ℕ) (result : Except ReadError Form) :
    place (moveResult f (Form.move f) result) = (place result).move f := by
  cases result <;> rfl

/-! ## Progress -/

theorem continueForm_suffix (start : Span) (top : Pending) (below : List Pending)
    (tokens : List Token) : (continueForm start top below tokens).2 <:+ tokens := by
  induction tokens generalizing top below with
  | nil => exact List.suffix_rfl
  | cons t rest ih =>
    rw [continueForm]
    split
    · exact List.suffix_cons t rest
    · exact List.suffix_cons t rest
    · exact (ih ..).trans (List.suffix_cons t rest)

theorem readForm_suffix (t : Token) (rest : List Token) : (readForm t rest).2 <:+ rest := by
  unfold readForm
  split
  · exact List.suffix_rfl
  · exact List.suffix_rfl
  · exact continueForm_suffix ..

namespace Parser

/-- The parser after a number of calls of `next`. -/
def after (p : Parser) : ℕ → Parser
  | 0 => p
  | n + 1 => p.next.2.after n

/-- The result of one call of `next` after a number of others. -/
def result (p : Parser) (n : ℕ) : Option (Except ReadError Form) := (p.after n).next.1

variable {p q : Parser}

/-- At the end nothing changes any more. -/
theorem next_of_none (h : p.next.1 = none) : p.next.2 = p := by
  cases htokens : p.tokens with
  | nil => rw [next_nil htokens]
  | cons t rest =>
    rw [(next_eq htokens).1] at h
    cases h

/-- A call that gives a result takes a token, whether it succeeds or fails. -/
theorem exists_taken_of_next (h : p.next.1 ≠ none) :
    ∃ taken, taken ≠ [] ∧ p.tokens = taken ++ p.next.2.tokens := by
  cases htokens : p.tokens with
  | nil =>
    rw [next_nil htokens] at h
    exact absurd rfl h
  | cons t rest =>
    obtain ⟨used, hused⟩ := readForm_suffix t rest
    rw [(next_eq htokens).2]
    exact ⟨t :: used, List.cons_ne_nil t used, congrArg (t :: ·) hused.symm⟩

theorem next_suffix (p : Parser) : p.next.2.tokens <:+ p.tokens := by
  by_cases h : p.next.1 = none
  · rw [next_of_none h]
  · obtain ⟨taken, -, htokens⟩ := exists_taken_of_next h
    exact ⟨taken, htokens.symm⟩

theorem after_suffix (p : Parser) (n : ℕ) : (p.after n).tokens <:+ p.tokens := by
  induction n generalizing p with
  | zero => exact List.suffix_rfl
  | succ n ih => exact (ih p.next.2).trans p.next_suffix

theorem length_next_le (p : Parser) : p.next.2.tokens.length ≤ p.tokens.length - 1 := by
  cases htokens : p.tokens with
  | nil =>
    rw [next_nil htokens, htokens]
    exact Nat.zero_le _
  | cons t rest =>
    rw [(next_eq htokens).2]
    exact length_readForm_le t rest

/-- There are no more results than tokens. -/
theorem result_eq_none {n : ℕ} (h : p.tokens.length ≤ n) : p.result n = none := by
  induction n generalizing p with
  | zero =>
    have hnil := List.length_eq_zero_iff.mp (Nat.le_zero.mp h)
    exact congrArg Prod.fst (next_nil hnil)
  | succ n ih =>
    have hnext := p.length_next_le
    exact ih (p := p.next.2) (by omega)

/-! ## Spans -/

/-- What is read lies behind an offset that all tokens lie behind. -/
theorem le_place_of_next {m : ℕ} (h : ∀ t ∈ p.tokens, m ≤ t.span.start ∧ m ≤ t.span.stop)
    {result : Except ReadError Form} (hresult : p.next.1 = some result) :
    m ≤ (place result).start ∧ m ≤ (place result).stop := by
  -- A move that takes offsets before `m` to `m` leaves the tokens in place, and so the result.
  have hstay : p.tokens.map (Token.move (max m)) = p.tokens := by
    refine (List.map_congr_left fun t ht => ?_).trans (List.map_id _)
    obtain ⟨hstart, hstop⟩ := h t ht
    rw [Token.move, Span.move, max_eq_right hstart, max_eq_right hstop]
    rfl
  cases htokens : p.tokens with
  | nil =>
    rw [next_nil htokens] at hresult
    cases hresult
  | cons t rest =>
    rw [htokens, List.map_cons] at hstay
    obtain ⟨ht, hrest⟩ := List.cons.inj hstay
    have hmove := readForm_move (fun _ _ => max_le_max_left m) t rest
    rw [ht, hrest] at hmove
    rw [(next_eq htokens).1] at hresult
    cases hresult
    have hplace := congrArg (fun r => place r.1) hmove
    rw [place_moveResult] at hplace
    constructor
    · exact (congrArg Span.start hplace).ge.trans' (le_max_left ..)
    · exact (congrArg Span.stop hplace).ge.trans' (le_max_left ..)

/-- A token that was taken ends before those that are left start, and so before they end. -/
theorem stop_le_of_tokenize {source : String} {taken rest : List Token}
    (h : tokenize source = taken ++ rest) {t : Token} (ht : t ∈ taken) :
    ∀ u ∈ rest, t.span.stop ≤ u.span.start ∧ t.span.stop ≤ u.span.stop := by
  intro u hu
  have hordered : (taken ++ rest).Pairwise (fun a b => a.span.stop ≤ b.span.start) :=
    h ▸ (scan_ordered 0 source.toList).1
  have hstart : t.span.stop ≤ u.span.start := (List.pairwise_append.mp hordered).2.2 t ht u hu
  have hmem : u ∈ tokenize source := h ▸ List.mem_append_right taken hu
  exact ⟨hstart, hstart.trans (start_le_stop_of_mem_scan hmem)⟩

/-! ## Starting anew -/

/-- One parser gives the results of another, call by call, with their spans moved. -/
def Follows (f : ℕ → ℕ) (p q : Parser) : Prop :=
  ∀ n, p.result n = (q.result n).map (moveResult f (Form.move f))

theorem next_move {f : ℕ → ℕ} (hf : Monotone f) (h : p.tokens = q.tokens.map (Token.move f)) :
    p.next.1 = q.next.1.map (moveResult f (Form.move f)) ∧
      p.next.2.tokens = q.next.2.tokens.map (Token.move f) := by
  cases hq : q.tokens with
  | nil =>
    rw [hq, List.map_nil] at h
    rw [next_nil h, next_nil hq, h, hq]
    exact ⟨rfl, rfl⟩
  | cons t rest =>
    rw [hq, List.map_cons] at h
    rw [(next_eq h).1, (next_eq h).2, (next_eq hq).1, (next_eq hq).2, readForm_move hf]
    exact ⟨rfl, rfl⟩

/-- Parsers with the same tokens left, up to their places, go on in the same way, wherever the last
token before ended. -/
theorem follows_of_tokens {f : ℕ → ℕ} (hf : Monotone f)
    (h : p.tokens = q.tokens.map (Token.move f)) : Follows f p q := by
  intro n
  induction n generalizing p q with
  | zero => exact (next_move hf h).1
  | succ n ih => exact ih (next_move hf h).2

/-- The source is cut behind a token, and a new parser on what is behind the cut gives the results that
the parser gives. Their spans are moved by the length of what is before the cut, as far as spans can
hold the offsets. -/
def StartsAnew (source : String) (last : Token) (p : Parser) : Prop :=
  ∃ gap back, source = gap ++ last.kind.text ++ back ∧
    last.span = .ofRange gap.utf8ByteSize (gap ++ last.kind.text).utf8ByteSize ∧
    Follows (Span.along (gap ++ last.kind.text).utf8ByteSize) p (ofSource back) ∧
    (source.utf8ByteSize ≤ Span.maxOffset →
      Follows (· + (gap ++ last.kind.text).utf8ByteSize) p (ofSource back))

/-- What a parser that has taken some tokens of a source does from there on. -/
structure Resumes (source : String) (taken : List Token) (p : Parser) : Prop where
  /-- The other tokens of the source are left. -/
  split : tokenize source = taken ++ p.tokens
  /-- A call takes a token at least, whether it succeeds or fails, as long as it has a result. -/
  progress : p.next.1 ≠ none → ∃ used, used ≠ [] ∧ p.tokens = used ++ p.next.2.tokens
  /-- There is no result exactly if no token is left. -/
  none_iff : p.next.1 = none ↔ p.tokens = []
  /-- A call without a result changes nothing. -/
  stays : p.next.1 = none → p.next.2 = p
  /-- What the next call reads, a form or an error, lies behind all tokens that were taken. -/
  behind : ∀ t ∈ taken, ∀ result, p.next.1 = some result →
    t.span.stop ≤ (place result).start ∧ t.span.stop ≤ (place result).stop
  /-- Reading goes on as if the source started behind the last token that was taken. -/
  memoryless : ∀ last ∈ taken.getLast?, StartsAnew source last p

/-- Behind its last token that was taken, a source is read as a source of its own. -/
theorem startsAnew_of_tokenize {source : String} {taken : List Token} {last : Token}
    (h : tokenize source = taken ++ last :: p.tokens) : StartsAnew source last p := by
  obtain ⟨gap, back, hsource, -, hspan, hafter⟩ := exists_cut_text h
  rw [Nat.zero_add] at hafter
  rw [Nat.zero_add, Nat.zero_add] at hspan
  refine ⟨gap, back, hsource, hspan, ?_, ?_⟩
  · refine follows_of_tokens (Span.monotone_along _) ?_
    rw [ofSource, tokenize, ← scan_along, Nat.zero_add, hafter]
  · intro hsize
    refine follows_of_tokens (fun _ _ h => Nat.add_le_add_right h _) ?_
    rw [hsource, String.utf8ByteSize_append, ← width_toList back] at hsize
    have hshift := scan_shift (gap ++ last.kind.text).utf8ByteSize 0 back.toList (by omega)
    rw [Nat.zero_add, hafter] at hshift
    exact hshift

theorem resumes_after (source : String) (n : ℕ) :
    ∃ taken, Resumes source taken ((ofSource source).after n) := by
  obtain ⟨taken, htaken⟩ := (ofSource source).after_suffix n
  have hsplit : tokenize source = taken ++ ((ofSource source).after n).tokens := htaken.symm
  refine ⟨taken, ?_⟩
  constructor
  · exact hsplit
  · exact exists_taken_of_next
  · exact atEnd_iff.symm.trans List.isEmpty_iff
  · exact next_of_none
  · intro t ht result hresult
    exact le_place_of_next (stop_le_of_tokenize hsplit ht) hresult
  · intro last hlast
    obtain ⟨others, rfl⟩ := List.getLast?_eq_some_iff.mp hlast
    rw [List.append_assoc] at hsplit
    exact startsAnew_of_tokenize hsplit

/-- Reading form by form makes progress and forgets its errors: whatever the source, every call takes
a token or finds none left, which is so after as many calls as there are tokens; every result lies
behind the tokens that were taken before; and after any number of calls reading goes on as in a source
that starts behind the last token that was taken. -/
theorem next_resumes (source : String) :
    (∀ n, ∃ taken, Resumes source taken ((ofSource source).after n)) ∧
    ∀ n, (tokenize source).length ≤ n → (ofSource source).result n = none := by
  constructor
  · exact resumes_after source
  · intro n hn
    exact result_eq_none (p := ofSource source) hn

example : (ofSource "(1 ] 'x").result 0 =
    some (.error ⟨.unexpectedCloser .square, ⟨3, 4⟩, .unexpectedDelimiter⟩) := by cbv

example : (ofSource "(1 ] 'x").result 1 =
    some (.ok (.list [.symbol "quote", .symbol "x"], ⟨5, 7⟩)) := by cbv

end Parser

end MatrixLisp.Reader
