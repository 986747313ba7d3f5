import Mathlib.Tactic
import MatrixLisp.Proofs.Decimal.FloatText
import MatrixLisp.Proofs.Reader.Lines
import MatrixLisp.Proofs.Reader.RoundTrip
import MatrixLisp.Proofs.Token.Layout

/-!
# Forms and their texts

A form is a value that some text is read as. The text of a form is cut into the tokens that print
it, and no other form is printed by the same tokens: brackets show where a sequence ends, and single
tokens are told apart by what they are read as. Different forms therefore have different texts.
-/
namespace MatrixLisp.Reader

open Token

/-- The values that are printed as one token. -/
inductive Leaf : TokenKind → Value → Prop
  | rational {q : Rational} : q.WellFormed → Leaf (.atom q.text) (.number (.rational q))
  | float {x : Float} : x.isFinite = true → Leaf (.atom (FloatText.literal x)) (.float x)
  | int (n : Int64) : Leaf (.atom (toString n.toInt)) (.int n)
  | symbol {s : String} : IsLexeme (.atom s) → Literal.classify s = .ok (.symbol s) →
      Leaf (.atom s) (.symbol s)
  | string {s : String} : IsLexeme (.string s) → Leaf (.string s) (.symbol s)
  | caret : Leaf .caret (.symbol "^")
  | semicolon : Leaf .semicolon (.symbol ";")

theorem isPlainDecimal_literal {x : Float} (hx : x.isFinite = true) :
    Literal.IsPlainDecimal (FloatText.literal x).toList := by
  obtain ⟨whole, part, hdecimal, htext⟩ := FloatText.exists_literal hx
  exact ⟨_, whole, part, FloatText.sign_eq x, hdecimal.isDigits_whole, hdecimal.isDigits_part, htext⟩

namespace Leaf

variable {kind : TokenKind} {v w : Value}

theorem isLexeme (h : Leaf kind v) : IsLexeme kind := by
  cases h with
  | rational => exact Literal.isLexeme_text _
  | float hx => exact (isPlainDecimal_literal hx).isLexeme_atom
  | int => exact Literal.isLexeme_toString _
  | symbol hs => exact hs
  | string hs => exact hs
  | caret => trivial
  | semicolon => trivial

theorem render_eq (h : Leaf kind v) : v.render = kind.text := by
  cases h <;> rfl

/-- The text of an atom other than a float is read as the atom. -/
theorem classify_or_float {s : String} (h : Leaf (.atom s) v) :
    (Literal.classify s = .ok v ∧ ∀ x : Float, v ≠ .float x) ∨
      ∃ x : Float, x.isFinite = true ∧ s = FloatText.literal x ∧ v = .float x := by
  cases h with
  | rational hq => exact Or.inl ⟨Literal.classify_rational hq, nofun⟩
  | float hx => exact Or.inr ⟨_, hx, rfl, rfl⟩
  | int n => exact Or.inl ⟨Literal.classify_int n, nofun⟩
  | symbol _ hs => exact Or.inl ⟨hs, nofun⟩

/-- A token prints one value at most. -/
theorem unique (h : Leaf kind v) (h' : Leaf kind w) : v = w := by
  have hmixed : ∀ {s : String} {v : Value} {x : Float}, Literal.classify s = .ok v →
      (∀ x : Float, v ≠ .float x) → x.isFinite = true → s ≠ FloatText.literal x := by
    rintro s v x hs hv hx rfl
    obtain ⟨y, hy⟩ := (isPlainDecimal_literal hx).exists_float hs
    exact hv y hy
  cases kind with
  | atom s =>
    obtain ⟨hs, hv⟩ | ⟨x, hx, hs, rfl⟩ := h.classify_or_float
    · obtain ⟨hs', -⟩ | ⟨y, hy, hs', -⟩ := h'.classify_or_float
      · exact Except.ok.inj (hs.symm.trans hs')
      · exact absurd hs' (hmixed hs hv hy)
    · obtain ⟨hs', hw⟩ | ⟨y, hy, hs', rfl⟩ := h'.classify_or_float
      · exact absurd hs (hmixed hs' hw hx)
      · rw [FloatText.literal_injective hx hy (hs.symm.trans hs')]
  | string s =>
    cases h
    cases h'
    rfl
  | caret =>
    cases h
    cases h'
    rfl
  | semicolon =>
    cases h
    cases h'
    rfl
  | _ => cases h

end Leaf

/-- A value with the values that are printed between its brackets. -/
inductive Assembled : Bracket → List Value → Value → Prop
  | list (items : List Value) : Assembled .round items (.list items)
  | vector (items : List Value) : Assembled .square items (.vector items)
  | map (d : Dict) : Assembled .curly d.flatten (.map d)

theorem Assembled.unique {b : Bracket} {items : List Value} {v w : Value} (h : Assembled b items v)
    (h' : Assembled b items w) : v = w := by
  cases h with
  | list =>
    cases h'
    rfl
  | vector =>
    cases h'
    rfl
  | map d =>
    generalize hitems : d.flatten = items at h'
    cases h' with
    | map d' => rw [← Dict.pairs_flatten d, hitems, Dict.pairs_flatten]

/-- The tokens that print a value. -/
inductive Prints : List TokenKind → Value → Prop
  | leaf {kind : TokenKind} {v : Value} : Leaf kind v → Prints [kind] v
  | bracket {b : Bracket} {parts : Parts} {v : Value} : (∀ p ∈ parts, Prints p.1 p.2) →
      Assembled b parts.values v → Prints (.opener b :: parts.spelling ++ [.closer b]) v

namespace Prints

variable {spelling other : List TokenKind} {v w : Value}

/-- No value is printed with a closer first. -/
theorem exists_head (h : Prints spelling v) :
    ∃ kind rest, spelling = kind :: rest ∧ ∀ b, kind ≠ .closer b := by
  cases h with
  | leaf hleaf =>
    refine ⟨_, _, rfl, ?_⟩
    rintro b rfl
    cases hleaf
  | bracket => exact ⟨_, _, rfl, nofun⟩

theorem ne_closer_cons {b : Bracket} {more rest : List TokenKind} (h : Prints spelling v) :
    spelling ++ more ≠ .closer b :: rest := by
  obtain ⟨kind, rest', rfl, hkind⟩ := h.exists_head
  intro heq
  exact hkind b (List.cons.inj heq).1

/-- Tokens print the same parts up to a closer if each part is determined by its tokens. -/
theorem parts_unique {b : Bracket} {parts others : Parts} {rest rest' : List TokenKind}
    (hparts : ∀ p ∈ parts, Prints p.1 p.2) (hothers : ∀ p ∈ others, Prints p.1 p.2)
    (hunique : ∀ p ∈ parts, ∀ {other : List TokenKind} {w : Value} {rest rest' : List TokenKind},
      Prints other w → p.1 ++ rest = other ++ rest' → p.2 = w ∧ rest = rest')
    (h : parts.spelling ++ .closer b :: rest = others.spelling ++ .closer b :: rest') :
    parts.values = others.values ∧ rest = rest' := by
  induction parts generalizing others with
  | nil =>
    cases others with
    | nil => exact ⟨rfl, (List.cons.inj h).2⟩
    | cons q others =>
      rw [Parts.spelling_cons, List.append_assoc] at h
      exact absurd h.symm (hothers q (by simp)).ne_closer_cons
  | cons p parts ih =>
    cases others with
    | nil =>
      rw [Parts.spelling_cons, List.append_assoc] at h
      exact absurd h (hparts p (by simp)).ne_closer_cons
    | cons q others =>
      rw [Parts.spelling_cons, Parts.spelling_cons, List.append_assoc, List.append_assoc] at h
      obtain ⟨hvalue, hmore⟩ := hunique p (by simp) (hothers q (by simp)) h
      obtain ⟨hvalues, hrest⟩ := ih (fun p hp => hparts p (by simp [hp]))
        (fun p hp => hothers p (by simp [hp])) (fun p hp => hunique p (by simp [hp])) hmore
      exact ⟨by rw [Parts.values_cons, Parts.values_cons, hvalue, hvalues], hrest⟩

/-- Whatever follows, tokens tell the value that is printed first. -/
theorem unique_of_append {rest rest' : List TokenKind} (h : Prints spelling v)
    (h' : Prints other w) (heq : spelling ++ rest = other ++ rest') : v = w ∧ rest = rest' := by
  induction h generalizing other w rest rest' with
  | leaf hleaf =>
    cases h' with
    | leaf hleaf' =>
      obtain ⟨rfl, hrest⟩ := List.cons.inj heq
      exact ⟨hleaf.unique hleaf', hrest⟩
    | bracket =>
      obtain ⟨rfl, -⟩ := List.cons.inj heq
      cases hleaf
  | @bracket b parts v hparts hv ih =>
    cases h' with
    | leaf hleaf' =>
      obtain ⟨rfl, -⟩ := List.cons.inj heq
      cases hleaf'
    | @bracket b' parts' w hparts' hw =>
      simp only [List.cons_append, List.append_assoc, List.nil_append, List.cons.injEq,
        TokenKind.opener.injEq] at heq
      obtain ⟨rfl, htail⟩ := heq
      obtain ⟨hvalues, hrest⟩ := parts_unique hparts hparts' (fun p hp => ih p hp) htail
      rw [← hvalues] at hw
      exact ⟨hv.unique hw, hrest⟩

end Prints

theorem cutAs_prints_of_leaf {kind : TokenKind} {v : Value} (h : Leaf kind v) : CutAs Prints v :=
  cutAs_of_isLexeme h.isLexeme (.leaf h) h.render_eq

/-- What lexemes denote is printed. -/
theorem Denotes.cutAs_prints {spelling : List TokenKind} {v : Value} (h : Denotes spelling v)
    (hlex : ∀ kind ∈ spelling, IsLexeme kind) : CutAs Prints v := by
  induction h with
  | @atom s v hs =>
    have hatom := hlex (.atom s) (by simp)
    obtain ⟨q, rfl, hq⟩ | ⟨x, rfl, hx⟩ | ⟨n, rfl⟩ | rfl := Literal.classify_cases hs
    · exact cutAs_prints_of_leaf (.rational hq)
    · exact cutAs_prints_of_leaf (.float hx)
    · exact cutAs_prints_of_leaf (.int n)
    · exact cutAs_prints_of_leaf (.symbol hatom hs)
  | string s => exact cutAs_prints_of_leaf (.string (hlex (.string s) (by simp)))
  | caret => exact cutAs_prints_of_leaf .caret
  | semicolon => exact cutAs_prints_of_leaf .semicolon
  | list _ ih =>
    have hvalues := Parts.forall_values fun p hp => ih p hp (Parts.forall_spelling hlex hp)
    exact cutAs_list (fun _ hparts => .bracket hparts (.list _)) hvalues
  | vector _ ih =>
    have hvalues := Parts.forall_values fun p hp => ih p hp (Parts.forall_spelling hlex hp)
    exact cutAs_vector (fun _ hparts => .bracket hparts (.vector _)) hvalues
  | map _ _ ih =>
    have hvalues := Parts.forall_values fun p hp => ih p hp (Parts.forall_spelling hlex hp)
    refine cutAs_map (fun parts hparts hflatten => ?_) (Dict.forall_ofList (Dict.forall_pairs hvalues))
    exact .bracket hparts (hflatten ▸ .map _)
  | mark m _ ih =>
    refine cutAs_list (fun _ hparts => .bracket hparts (.list _)) fun item hitem => ?_
    rcases List.mem_cons.mp hitem with rfl | hitem
    · exact cutAs_prints_of_leaf (.symbol (isLexeme_symbol m) (classify_symbol m))
    · rw [List.mem_singleton.mp hitem]
      exact ih fun kind hkind => hlex kind (by simp [hkind])

/-- A value that a text is read as, alone or among others. -/
def IsForm (v : Value) : Prop := ∃ source vs, Reads source vs ∧ v ∈ vs

/-- Forms are what lexemes denote. -/
theorem isForm_iff {v : Value} :
    IsForm v ↔ ∃ spelling, Denotes spelling v ∧ ∀ kind ∈ spelling, IsLexeme kind := by
  constructor
  · rintro ⟨source, vs, hreads, hv⟩
    obtain ⟨parts, hparts, hspelling, rfl⟩ := reads_iff_spells.mp hreads
    obtain ⟨p, hp, rfl⟩ := List.mem_map.mp hv
    refine ⟨p.1, hparts p hp, fun kind hkind => ?_⟩
    have hmem : kind ∈ kinds source.toList := hspelling ▸ Parts.mem_spelling.mpr ⟨p, hp, hkind⟩
    obtain hlexeme | ⟨s, rfl⟩ := isLexeme_of_mem_kinds hmem
    · exact hlexeme
    · exact absurd hkind ((hparts p hp).unterminated_not_mem s)
  · rintro ⟨spelling, hdenotes, hlex⟩
    refine ⟨layOut (fun _ => " ") spelling, [v], reads_iff_spells.mpr ?_, List.mem_singleton_self v⟩
    rw [kinds_layOut_blank hlex]
    simpa using Spells.nil.cons hdenotes

/-- Different forms have different texts. -/
theorem IsForm.render_injective {v w : Value} (hv : IsForm v) (hw : IsForm w)
    (h : v.render = w.render) : v = w := by
  obtain ⟨spelling, hdenotes, hlex⟩ := isForm_iff.mp hv
  obtain ⟨other, hdenotes', hlex'⟩ := isForm_iff.mp hw
  obtain ⟨printed, hprints, hkinds⟩ := hdenotes.cutAs_prints hlex
  obtain ⟨printed', hprints', hkinds'⟩ := hdenotes'.cutAs_prints hlex'
  have hsame : printed ++ kinds [] = printed' ++ kinds [] := by
    rw [← hkinds [] boundary_nil, h, hkinds' [] boundary_nil]
  exact (hprints.unique_of_append hprints' hsame).1

end MatrixLisp.Reader
