import Mathlib.Tactic
import MatrixLisp.Proofs.Eval.Invariant
import MatrixLisp.Proofs.Reader.Lines
import MatrixLisp.Proofs.Reader.Shift

/-!
# Reading on behind a separator

What is read of tokens is decided by those that are taken, and the rest is left as it is: only a
context that is still open when the tokens end waits for more. Forms that are read from a text are
therefore read again when a separator and another text follow. The other text is read as it is on its
own, with its spans moved along.
-/
namespace MatrixLisp

/-- An error that no further token can mend. -/
def ReadError.Decided (e : ReadError) : Prop := e.code ≠ .unclosedDelimiter

namespace Reader

open Token Text

/-- Tokens are free of strings without a closing quote, or the result tells of one. -/
def Reports {α : Type} (tokens : List Token) : Except ReadError α → Prop :=
  Outcome (fun _ => Terminated tokens) fun e => e.code = .unterminatedString ∨ Terminated tokens

/-- Why a token is refused: a closer that does not fit, a map with a key left over, a string without
its closing quote, text that is no token, or an atom that denotes no number. -/
inductive Refused (stack : List Pending) (t : Token) : ReadError → Prop
  | closer {b : Bracket} : t.kind = .closer b →
      Refused stack t ⟨.unexpectedCloser b, t.span, .unexpectedDelimiter⟩
  | odd {opened : Span} {items : List Value} {below : List Pending} :
      stack = .bracket .curly opened items :: below → t.kind = .closer .curly →
      items.length % 2 ≠ 0 →
      Refused stack t ⟨.oddEntries items.length, opened.cover (.point t.span.stop), .oddMapEntries⟩
  | unterminated {s : String} : t.kind = .unterminated s →
      Refused stack t ⟨.unterminatedString, t.span, .unterminatedString⟩
  | unmatched {s : String} : t.kind = .unmatched s →
      Refused stack t ⟨.unexpectedCharacter s, t.span, .unexpectedCharacter⟩
  | atom {s : String} {f : Fault} : t.kind = .atom s → Literal.classify s = .error f →
      Refused stack t ⟨f, t.span, literalCode f⟩

theorem refused_of_close {b : Bracket} {t : Token} (hb : t.kind = .closer b) {stack : List Pending}
    {e : ReadError} (h : close b t.span stack = .error e) : Refused stack t e := by
  cases stack with
  | nil =>
    cases h
    exact .closer hb
  | cons p below =>
    cases p with
    | mark m span =>
      cases h
      exact .closer hb
    | bracket b' opened items =>
      simp only [close] at h
      split_ifs at h with hsame
      · subst hsame
        cases b with
        | round => cases h
        | square => cases h
        | curly =>
          rw [assemble, List.length_reverse] at h
          split_ifs at h with heven
          · cases h
          · cases h
            exact .odd rfl hb heven
      · cases h
        exact .closer hb

theorem refused_of_advance {stack : List Pending} {t : Token} {e : ReadError}
    (h : advance stack t = .error e) : Refused stack t e := by
  unfold advance at h
  split at h
  case h_3 b hb => exact refused_of_close hb h
  case h_7 s hs =>
    cases h
    exact .unterminated hs
  case h_8 s hs =>
    cases h
    exact .unmatched hs
  case h_9 s hs =>
    split at h
    · cases h
    · rename_i f hf
      cases h
      exact .atom hs hf
  all_goals cases h

/-- A token is refused with an error that no further token can mend. -/
theorem Refused.decided {stack : List Pending} {t : Token} {e : ReadError}
    (h : Refused stack t e) : e.Decided := by
  cases h with
  | atom =>
    show literalCode _ ≠ .unclosedDelimiter
    unfold literalCode
    split <;> decide
  | _ => exact nofun

/-- A string without its closing quote is refused as such. -/
theorem reports_advance (stack : List Pending) (t : Token) : Reports [t] (advance stack t) := by
  by_cases h : ∃ s, t.kind = .unterminated s
  · obtain ⟨s, hs⟩ := h
    rw [advance, hs]
    exact Or.inl rfl
  · have hterminated : Terminated [t] := by
      intro u hu s hs
      rw [List.mem_singleton.mp hu] at hs
      exact h ⟨s, hs⟩
    cases advance stack t with
    | ok progress => exact hterminated
    | error e => exact Or.inr hterminated

/-- A form that is read inside open contexts, or an error that no further token can mend, is decided
by the tokens that are taken. -/
theorem exists_used_of_continueForm {start : Span} {top : Pending} {below : List Pending}
    {tokens rest : List Token} {result : Except ReadError Form}
    (h : continueForm start top below tokens = (result, rest))
    (hresult : Outcome (fun _ => True) ReadError.Decided result) :
    ∃ used, tokens = used ++ rest ∧ Reports used result ∧
      ∀ more, continueForm start top below (used ++ more) = (result, more) := by
  induction tokens generalizing top below with
  | nil =>
    cases h
    cases top <;> exact absurd rfl hresult
  | cons t tokens ih =>
    have hreports := reports_advance (top :: below) t
    rw [continueForm] at h
    cases hadvance : advance (top :: below) t with
    | error e =>
      rw [hadvance] at h hreports
      cases h
      refine ⟨[t], rfl, hreports, fun more => ?_⟩
      rw [List.singleton_append, continueForm, hadvance]
    | ok progress =>
      rw [hadvance] at h hreports
      cases progress with
      | done v =>
        cases h
        refine ⟨[t], rfl, hreports, fun more => ?_⟩
        rw [List.singleton_append, continueForm, hadvance]
      | waiting top' below' =>
        obtain ⟨used, rfl, hused, hmore⟩ := ih h
        refine ⟨t :: used, rfl, ?_, fun more => ?_⟩
        · have hterminated : Terminated [t] := hreports
          cases result with
          | ok form => exact hterminated.append hused
          | error e => exact hused.imp_right hterminated.append
        · rw [List.cons_append, continueForm, hadvance]
          exact hmore more

theorem exists_used_of_readForm {t : Token} {tokens rest : List Token}
    {result : Except ReadError Form} (h : readForm t tokens = (result, rest))
    (hresult : Outcome (fun _ => True) ReadError.Decided result) :
    ∃ used, tokens = used ++ rest ∧ Reports (t :: used) result ∧
      ∀ more, readForm t (used ++ more) = (result, more) := by
  have hreports := reports_advance [] t
  rw [readForm] at h
  cases hadvance : advance [] t with
  | error e =>
    rw [hadvance] at h hreports
    cases h
    refine ⟨[], rfl, hreports, fun more => ?_⟩
    rw [List.nil_append, readForm, hadvance]
  | ok progress =>
    rw [hadvance] at h hreports
    cases progress with
    | done v =>
      cases h
      refine ⟨[], rfl, hreports, fun more => ?_⟩
      rw [List.nil_append, readForm, hadvance]
    | waiting top below =>
      obtain ⟨used, rfl, hused, hmore⟩ := exists_used_of_continueForm h hresult
      refine ⟨used, rfl, ?_, fun more => ?_⟩
      · have hterminated : Terminated [t] := hreports
        cases result with
        | ok form => exact hterminated.append hused
        | error e => exact hused.imp_right hterminated.append
      · rw [readForm, hadvance]
        exact hmore more

/-- Forms that are read of some tokens are read again when more tokens follow, and what follows is
read on its own. -/
theorem readForms_append {tokens : List Token} {forms : List Form}
    (h : readForms tokens = .ok forms) (more : List Token) :
    readForms (tokens ++ more) = (readForms more).map (forms ++ ·) := by
  fun_induction readForms tokens generalizing forms with
  | case1 =>
    cases h
    rw [List.nil_append]
    cases readForms more <;> rfl
  | case2 t rest result form hform =>
    rename_i ih
    cases hrest : readForms result.2 with
    | error e =>
      rw [hrest] at h
      cases h
    | ok others =>
      rw [hrest] at h
      cases h
      obtain ⟨used, hused, -, hmore⟩ := exists_used_of_readForm (Prod.ext hform rfl) trivial
      rw [hused, List.cons_append, List.append_assoc, readForms, hmore]
      dsimp only
      rw [ih hrest]
      cases readForms more <;> rfl
  | case3 => cases h

/-- An error that no further token can mend is decided by the tokens up to it. -/
theorem exists_used_of_readForms {tokens : List Token} {e : ReadError}
    (h : readForms tokens = .error e) (he : ReadError.Decided e) :
    ∃ used rest, tokens = used ++ rest ∧ (e.code = .unterminatedString ∨ Terminated used) ∧
      ∀ more, readForms (used ++ more) = .error e := by
  fun_induction readForms tokens with
  | case1 => cases h
  | case2 t rest result form hform ih =>
    cases hrest : readForms result.2 with
    | ok others =>
      rw [hrest] at h
      cases h
    | error e' =>
      rw [hrest] at h
      cases h
      obtain ⟨first, hfirst, hterminated, hmore⟩ :=
        exists_used_of_readForm (Prod.ext hform rfl) trivial
      obtain ⟨used, after, hused, hreports, herror⟩ := ih hrest
      refine ⟨t :: first ++ used, after, ?_, ?_, fun more => ?_⟩
      · have hrest : rest = first ++ result.2 := hfirst
        rw [hrest, hused, List.cons_append, List.cons_append, List.append_assoc]
      · exact hreports.imp_right (Terminated.append hterminated)
      · rw [List.cons_append, List.cons_append, List.append_assoc, readForms, hmore]
        dsimp only
        rw [herror]
        rfl
  | case3 t rest result e' herror =>
    cases h
    obtain ⟨used, hused, hreports, hmore⟩ :=
      exists_used_of_readForm (Prod.ext herror rfl) he
    refine ⟨t :: used, result.2, by rw [hused]; rfl, hreports, fun more => ?_⟩
    rw [List.cons_append, readForms, hmore]

/-- Reading is compositional: behind a text that is read and separators, another text is read as it
is on its own. Its forms follow those of the first text, or its error is that of the whole, with all
spans moved along by what stands before. -/
theorem readAll_append_separators {first separators : String} (second : String) {forms : List Form}
    (hfirst : readAll first = .ok forms) (hne : separators ≠ "")
    (hseparators : ∀ c ∈ separators.toList, isSeparator c = true)
    (hsize : (first ++ separators ++ second).utf8ByteSize ≤ Span.maxOffset) :
    (∀ more, readAll second = .ok more → readAll (first ++ separators ++ second) =
      .ok (forms ++ more.map (Form.shift (first ++ separators).utf8ByteSize))) ∧
    (∀ e, readAll second = .error e → readAll (first ++ separators ++ second) =
      .error (e.shift (first ++ separators).utf8ByteSize)) := by
  have htokens : tokenize (first ++ separators ++ second) = tokenize first ++
      (tokenize second).map (Token.shift (first ++ separators).utf8ByteSize) := by
    have hclosed := (spells_of_readForms hfirst).unterminated_not_mem
    obtain ⟨c, cs, hcs⟩ := List.exists_cons_of_ne_nil (mt String.toList_eq_nil_iff.mp hne)
    have hc : isSeparator c = true := hseparators c (by simp [hcs])
    have hwidth : width first.toList + width (c :: cs) = 0 + (first ++ separators).utf8ByteSize := by
      rw [← hcs, width_toList, width_toList, String.utf8ByteSize_append, Nat.zero_add]
    rw [tokenize, String.toList_append, String.toList_append, hcs, List.append_assoc,
      List.cons_append, scan_append_separator 0 hclosed hc, Nat.zero_add, ← List.cons_append,
      scan_separators _ (hcs ▸ hseparators), hwidth, scan_shift]
    · rfl
    · rw [width_toList, Nat.zero_add, ← String.utf8ByteSize_append]
      exact hsize
  have hread : readAll (first ++ separators ++ second) =
      (shiftResult (fun n => List.map (Form.shift n)) (first ++ separators).utf8ByteSize
        (readAll second)).map (forms ++ ·) := by
    rw [readAll, htokens, readForms_append hfirst, readForms_shift]
    rfl
  constructor
  · intro more hmore
    rw [hread, hmore]
    rfl
  · intro e he
    rw [hread, he]
    rfl

/-- Behind a quoted form, a comma and a wide blank, a stray closer is reported where it stands. -/
theorem readAll_append_separators_stray :
    readAll ("'é" ++ ",\u2003" ++ "b)") =
      .error ⟨.unexpectedCloser .round, ⟨8, 9⟩, .unexpectedDelimiter⟩ := by
  have hfirst : readAll "'é" = .ok [(.list [.symbol "quote", .symbol "é"], ⟨0, 3⟩)] := by cbv
  have hsecond : readAll "b)" =
      .error ⟨.unexpectedCloser .round, ⟨1, 2⟩, .unexpectedDelimiter⟩ := by cbv
  have hne : ",\u2003" ≠ "" := by decide
  have hseparators : ∀ c ∈ ",\u2003".toList, isSeparator c = true := by
    have hchars : ",\u2003".toList = [',', '\u2003'] := rfl
    rw [hchars, List.forall_mem_cons, List.forall_mem_singleton]
    exact ⟨rfl, rfl⟩
  have hsize : ("'é" ++ ",\u2003" ++ "b)").utf8ByteSize ≤ Span.maxOffset := by decide
  obtain ⟨-, herror⟩ := readAll_append_separators "b)" hfirst hne hseparators hsize
  exact herror _ hsecond

end Reader

end MatrixLisp
