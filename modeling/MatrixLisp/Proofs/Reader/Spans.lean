import Mathlib.Tactic
import MatrixLisp.Console.Command
import MatrixLisp.Proofs.Reader.Continuation
import MatrixLisp.Proofs.Token.Cut
import MatrixLisp.Proofs.Token.MaximalMunch

/-!
# Where forms stand

The span of a form reaches from the start of its first token to the end of its last one. The text in
between is read as the same form on its own, since cutting a text behind a token changes no token
before. So a source is laid out as separators and texts of forms by turns.
-/
namespace MatrixLisp.Reader

open Token Text

/-! ## The last token of a form -/

theorem exists_last_of_continueForm {start : Span} {top : Pending} {below : List Pending}
    {tokens rest : List Token} {form : Form}
    (h : continueForm start top below tokens = (.ok form, rest)) :
    ∃ front last, tokens = front ++ last :: rest ∧
      form.2 = start.cover (.point last.span.stop) := by
  induction tokens generalizing top below with
  | nil => cases h
  | cons t tokens ih =>
    rw [continueForm] at h
    split at h
    · cases h
    · cases h
      exact ⟨[], t, rfl, rfl⟩
    · obtain ⟨front, last, rfl, hspan⟩ := ih h
      exact ⟨t :: front, last, rfl, hspan⟩

theorem exists_last_of_readForm {t : Token} {tokens rest : List Token} {form : Form}
    (h : readForm t tokens = (.ok form, rest)) :
    ∃ front last, t :: tokens = front ++ last :: rest ∧
      form.2 = t.span.cover (.point last.span.stop) := by
  unfold readForm at h
  split at h
  · cases h
  · cases h
    exact ⟨[], t, rfl, rfl⟩
  · obtain ⟨front, last, rfl, hspan⟩ := exists_last_of_continueForm h
    exact ⟨t :: front, last, rfl, hspan⟩

/-! ## The text of a form -/

/-- Tokens that are all used up by one form are read as this form. -/
theorem readForms_of_readForm {t : Token} {tokens : List Token} {form : Form}
    (h : readForm t tokens = (.ok form, [])) : readForms (t :: tokens) = .ok [form] := by
  rw [readForms, h]
  dsimp only
  rw [readForms]
  rfl

theorem cover_point_of_le {s : Span} {n : ℕ} (hstart : s.start ≤ n) (hstop : s.stop ≤ n) :
    s.cover (.point n) = ⟨s.start, n⟩ := by
  rw [Span.cover, Span.point, min_eq_left hstart, max_eq_right hstop]

/-- A token ends where the text ends at the latest. -/
theorem stop_le_of_mem_scan {offset : ℕ} {cs : List Char} {t : Token} (h : t ∈ scan offset cs) :
    t.span.stop ≤ offset + width cs := by
  obtain ⟨before, after, hsplit, hspan, -⟩ := exists_split_of_mem_scan h
  rw [hspan, hsplit, width_append, width_append, width_toList]
  exact (min_le_left ..).trans (by omega)

/-- What is read further on in a source is read of the text alone as well, with spans that start from
zero. -/
theorem readAll_of_scan {offset : ℕ} {text : List Char} {v : Value} (n : ℕ)
    (hsize : offset + width text ≤ Span.maxOffset)
    (h : readForms (scan offset text) = .ok [(v, ⟨offset, offset + n⟩)]) :
    readAll (String.ofList text) = .ok [(v, ⟨0, n⟩)] := by
  have hscan : scan offset text = (scan 0 text).map (Token.shift offset) := by
    rw [← scan_shift offset 0 text (by omega), Nat.zero_add]
  rw [hscan, readForms_shift] at h
  rw [readAll, tokenize, String.toList_ofList]
  cases hforms : readForms (scan 0 text) with
  | error e =>
    rw [hforms] at h
    cases h
  | ok forms =>
    rw [hforms] at h
    obtain ⟨⟨w, start, stop⟩, rfl, hform⟩ := List.map_eq_singleton_iff.mp (Except.ok.inj h)
    simp only [Form.shift, Span.shift, Prod.mk.injEq, Span.mk.injEq] at hform
    obtain ⟨rfl, hstart, hstop⟩ := hform
    rw [show start = 0 by omega, show stop = n by omega]

/-- The first form of a text is read of a part behind separators alone. -/
theorem exists_text_of_readForm {offset : ℕ} {cs : List Char} {t : Token} {tokens rest : List Token}
    {form : Form} (h : scan offset cs = t :: tokens) (hsize : offset + width cs ≤ Span.maxOffset)
    (hform : readForm t tokens = (.ok form, rest)) :
    ∃ before text after, cs = before ++ (text ++ after) ∧ (∀ c ∈ before, isSeparator c = true) ∧
      0 < width text ∧
      form.2 = ⟨offset + width before, offset + width before + width text⟩ ∧
      readAll (String.ofList text) = .ok [(form.1, ⟨0, width text⟩)] ∧
      scan (offset + width before + width text) after = rest := by
  obtain ⟨used, rfl, hterminated, hmore⟩ := exists_used_of_readForm hform trivial
  obtain ⟨front, last, hlast, hspan⟩ := exists_last_of_readForm hform
  have hused : t :: used = front ++ [last] := by
    rw [← List.cons_append, List.append_cons front last rest] at hlast
    exact List.append_cancel_right hlast
  -- The form is read whatever follows it, so also when nothing does.
  have halone : readForms (t :: used) = .ok [form] := by
    have hread := hmore []
    rw [List.append_nil] at hread
    exact readForms_of_readForm hread
  rw [← List.cons_append] at h
  obtain ⟨before, text, after, htaken⟩ := exists_taken h (List.cons_ne_nil _ _) hsize
  have hscan : scan (offset + width before) text = t :: used := htaken.scan_text hterminated
  have hpos : 0 < width text := by
    apply width_pos
    rintro rfl
    rw [scan_nil] at hscan
    cases hscan
  have hstart : t.span.start = offset + width before := htaken.start_eq t rfl
  have hstop : last.span.stop = offset + width before + width text :=
    htaken.stop_eq last (by rw [hused, List.getLast?_concat]; rfl)
  have hwithin : t.span.stop ≤ offset + width before + width text :=
    stop_le_of_mem_scan (hscan ▸ List.mem_cons_self)
  have hcover : form.2 = ⟨offset + width before, offset + width before + width text⟩ := by
    rw [hspan, hstop, cover_point_of_le (by omega) hwithin, hstart]
  have hsize' : offset + width before + width text ≤ Span.maxOffset := by
    rw [htaken.split, width_append, width_append] at hsize
    omega
  refine ⟨before, text, after, by rw [htaken.split, List.append_assoc], htaken.separators, hpos,
    hcover, readAll_of_scan _ hsize' ?_, htaken.scan_after⟩
  rw [hscan, halone, ← hcover]

/-! ## The layout of a source -/

/-- From an offset on, a text is laid out as separators and texts of forms by turns. Each form has
the span of its text and is what its text alone is read as. -/
inductive LaidOut : ℕ → List Char → List Form → Prop
  | nil {offset : ℕ} {cs : List Char} : (∀ c ∈ cs, isSeparator c = true) → LaidOut offset cs []
  | cons {offset : ℕ} {before text after : List Char} {form : Form} {forms : List Form} :
      (∀ c ∈ before, isSeparator c = true) → 0 < width text →
      form.2 = ⟨offset + width before, offset + width before + width text⟩ →
      readAll (String.ofList text) = .ok [(form.1, ⟨0, width text⟩)] →
      LaidOut (offset + width before + width text) after forms →
      LaidOut offset (before ++ (text ++ after)) (form :: forms)

theorem separators_of_scan_eq_nil {offset : ℕ} {cs : List Char} (h : scan offset cs = []) :
    ∀ c ∈ cs, isSeparator c = true := by
  induction offset, cs using text_induction with
  | nil => exact nofun
  | separator offset c rest hc ih =>
    rw [scan_cons_of_separator hc] at h
    exact List.forall_mem_cons.mpr ⟨hc, ih h⟩
  | lexeme offset kind rest hlex =>
    rw [scan_of_lexeme? hlex] at h
    cases h

/-- A text that is read is laid out as the forms that are read of it. -/
theorem laidOut_of_readForms {offset : ℕ} {cs : List Char} {forms : List Form}
    (hsize : offset + width cs ≤ Span.maxOffset) (h : readForms (scan offset cs) = .ok forms) :
    LaidOut offset cs forms := by
  generalize hscan : scan offset cs = tokens at h
  fun_induction readForms tokens generalizing offset cs forms with
  | case1 =>
    cases h
    exact .nil (separators_of_scan_eq_nil hscan)
  | case2 t rest result form hform =>
    rename_i ih
    cases hrest : readForms result.2 with
    | error e =>
      rw [hrest] at h
      cases h
    | ok others =>
      rw [hrest] at h
      cases h
      obtain ⟨before, text, after, rfl, hbefore, hpos, hspan, hread, hafter⟩ :=
        exists_text_of_readForm hscan hsize (Prod.ext hform rfl)
      rw [width_append, width_append] at hsize
      exact .cons hbefore hpos hspan hread (ih (by omega) hafter hrest)
  | case3 => cases h

/-- How a form stands in a source, between what is before and what is after its text. -/
structure Stands (source : List Char) (form : Form) (before text after : List Char) : Prop where
  split : source = before ++ text ++ after
  start_eq : form.2.start = width before
  stop_eq : form.2.stop = width (before ++ text)
  nonempty : form.2.start < form.2.stop
  /-- The text alone is read as the form, from its first to its last byte. -/
  alone : readAll (String.ofList text) = .ok [(form.1, ⟨0, width text⟩)]

/-- A character of two texts lies in the first of them or in the second. -/
theorem exists_split_at {front back before after : List Char} {c : Char}
    (h : front ++ back = before ++ c :: after) :
    (∃ more, front = before ++ c :: more) ∨
      ∃ more, before = front ++ more ∧ back = more ++ c :: after := by
  obtain ⟨more, hbefore, hback⟩ | ⟨more, hfront, hafter⟩ := List.append_eq_append_iff.mp h
  · exact Or.inr ⟨more, hbefore, hback⟩
  · cases more with
    | nil => exact Or.inr ⟨[], by simpa using hfront.symm, hafter.symm⟩
    | cons d more =>
      obtain ⟨rfl, -⟩ := List.cons.inj hafter
      exact Or.inl ⟨more, hfront⟩

namespace LaidOut

variable {offset : ℕ} {cs : List Char} {forms : List Form}

theorem ordered (h : LaidOut offset cs forms) :
    forms.Pairwise (fun a b => a.2.stop ≤ b.2.start) ∧ ∀ form ∈ forms, offset ≤ form.2.start := by
  induction h with
  | nil => exact ⟨.nil, nofun⟩
  | @cons offset before text after form forms _ _ hspan _ _ ih =>
    obtain ⟨hordered, hstart⟩ := ih
    refine ⟨List.pairwise_cons.mpr ⟨fun other hother => ?_, hordered⟩, ?_⟩
    · rw [hspan]
      exact hstart other hother
    · refine List.forall_mem_cons.mpr ⟨?_, fun other hother => ?_⟩
      · rw [hspan]
        exact Nat.le_add_right ..
      · have hle := hstart other hother
        omega

/-- In a source in which the text stands behind another one, the forms stand where they are said to. -/
theorem exists_stands (h : LaidOut offset cs forms) (front : List Char)
    (hoffset : offset = width front) :
    ∀ form ∈ forms, ∃ before text after, Stands (front ++ cs) form before text after := by
  induction h generalizing front with
  | nil => exact nofun
  | @cons offset before text after form forms _ hpos hspan hread _ ih =>
    refine List.forall_mem_cons.mpr ⟨⟨front ++ before, text, after, ?_⟩, fun other hother => ?_⟩
    · constructor
      · simp
      · rw [hspan, width_append, hoffset]
      · rw [hspan, width_append, width_append, hoffset]
      · rw [hspan]
        exact Nat.lt_add_of_pos_right hpos
      · exact hread
    · have hfront : offset + width before + width text = width (front ++ (before ++ text)) := by
        rw [width_append, width_append, hoffset, Nat.add_assoc]
      simpa using ih _ hfront other hother

/-- A character outside the spans of all forms is a separator. -/
theorem separator_of_outside (h : LaidOut offset cs forms) {before after : List Char} {c : Char}
    (hcs : cs = before ++ c :: after)
    (houtside : ∀ form ∈ forms,
      ¬(form.2.start ≤ offset + width before ∧ offset + width before < form.2.stop)) :
    isSeparator c = true := by
  induction h generalizing before with
  | nil hseparators => exact hseparators c (by simp [hcs])
  | @cons offset gap text rest form forms hgap _ hspan _ _ ih =>
    obtain ⟨more, rfl⟩ | ⟨more, rfl, hmore⟩ := exists_split_at hcs
    · exact hgap c (by simp)
    · obtain ⟨more', rfl⟩ | ⟨more', rfl, hmore'⟩ := exists_split_at hmore
      · -- The character lies in the text of the form.
        have hinside := houtside form List.mem_cons_self
        have hc := c.utf8Size_pos
        rw [hspan] at hinside
        simp only [width_append, width_cons] at hinside
        omega
      · refine ih hmore' fun other hother => ?_
        have hother := houtside other (List.mem_cons_of_mem _ hother)
        simpa only [width_append, Nat.add_assoc] using hother

end LaidOut

end MatrixLisp.Reader

namespace MatrixLisp

/-! ## Failures -/

/-- A program fails at one of its forms, and the failure has the span of this form. -/
theorem Program.exists_form_of_failure {eval : Eval.Evaluator} {forms : List Reader.Form}
    {last : Value} {m m' : Machine} {f : Failure}
    (h : evalFormsWith eval forms last m = (.error f, m')) :
    ∃ form ∈ forms, f.span = form.2 ∧
      ∃ m₀, eval form.1 Session.rootScope m₀ = (.error f.halt, m') := by
  induction forms generalizing last m with
  | nil => cases h
  | cons first forms ih =>
    rw [evalFormsWith] at h
    split at h
    · obtain ⟨form, hform, hfails⟩ := ih h
      exact ⟨form, List.mem_cons_of_mem _ hform, hfails⟩
    · rename_i halt m₁ hhalt
      cases h
      exact ⟨first, List.mem_cons_self, rfl, m, hhalt⟩

/-- The diagnostic of a failure and its labels have the span of the failure. -/
theorem Console.span_of_diagnostic? {f : Failure} {d : Diagnostic}
    (h : (CommandError.failed f).diagnostic? = some d) :
    d.span = f.span ∧ ∀ l ∈ d.labels, l.span = f.span := by
  obtain ⟨halt, span⟩ := f
  cases halt with
  | fault fault =>
    cases h
    refine ⟨rfl, fun l hl => ?_⟩
    rw [List.mem_singleton.mp hl]
  | _ => cases h

namespace Reader

open Token Text

/-- The spans of the forms of a source follow one another and are not empty; the text that a span cuts
out is read as its form again, and what no span covers are blanks and commas. So where a program
fails, the diagnostic points to the text of the form whose evaluation failed. -/
theorem readAll_spans {source : String} {forms : List Form}
    (hsize : source.utf8ByteSize ≤ Span.maxOffset) (hread : readAll source = .ok forms) :
    forms.Pairwise (fun a b => a.2.stop ≤ b.2.start) ∧
    (∀ form ∈ forms, ∃ before text after, Stands source.toList form before text after) ∧
    (∀ before c after, source.toList = before ++ c :: after →
      (∀ form ∈ forms, ¬(form.2.start ≤ width before ∧ width before < form.2.stop)) →
      isBlank c = true ∨ c = ',') ∧
    ∀ (eval : Eval.Evaluator) (last : Value) (m m' : Machine) (f : Failure),
      Program.evalFormsWith eval forms last m = (.error f, m') →
      ∃ form ∈ forms, f.span = form.2 ∧
        (∃ m₀, eval form.1 Session.rootScope m₀ = (.error f.halt, m')) ∧
        ∀ d, (Console.CommandError.failed f).diagnostic? = some d →
          d.span = form.2 ∧ ∀ l ∈ d.labels, l.span = form.2 := by
  have hlaid : LaidOut 0 source.toList forms :=
    laidOut_of_readForms (by rwa [width_toList, Nat.zero_add]) hread
  refine ⟨hlaid.ordered.1, hlaid.exists_stands [] rfl, ?_, ?_⟩
  · intro before c after hsplit houtside
    have hseparator : isSeparator c = true := by
      apply hlaid.separator_of_outside hsplit
      simpa only [Nat.zero_add] using houtside
    simpa [isSeparator] using hseparator
  · intro eval last m m' f hfails
    obtain ⟨form, hform, hspan, hhalt⟩ := Program.exists_form_of_failure hfails
    refine ⟨form, hform, hspan, hhalt, fun d hd => ?_⟩
    rw [← hspan]
    exact Console.span_of_diagnostic? hd

/-- A marked form, and brackets with a closer inside a string, among letters of two bytes. -/
theorem readAll_spans_nested :
    "'é,[(ß)\x22)\x22]".utf8ByteSize ≤ Span.maxOffset ∧
    readAll "'é,[(ß)\x22)\x22]" = .ok [(.list [.symbol "quote", .symbol "é"], ⟨0, 3⟩),
      (.vector [.list [.symbol "ß"], .symbol "\x22)\x22"], ⟨4, 13⟩)] ∧
    ∃ before text after, Stands "'é,[(ß)\x22)\x22]".toList
      (.vector [.list [.symbol "ß"], .symbol "\x22)\x22"], ⟨4, 13⟩) before text after := by
  have hsize : "'é,[(ß)\x22)\x22]".utf8ByteSize ≤ Span.maxOffset := by decide
  have hread : readAll "'é,[(ß)\x22)\x22]" = .ok [(.list [.symbol "quote", .symbol "é"], ⟨0, 3⟩),
      (.vector [.list [.symbol "ß"], .symbol "\x22)\x22"], ⟨4, 13⟩)] := by cbv
  obtain ⟨-, hstands, -, -⟩ := readAll_spans hsize hread
  exact ⟨hsize, hread, hstands _ (by simp)⟩

end Reader

end MatrixLisp
