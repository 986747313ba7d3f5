import Mathlib
import MatrixLisp.Proofs.Reader.Grammar
import MatrixLisp.Proofs.Reader.Numeral
import MatrixLisp.Proofs.Value.Dictionary

/-!
# Reading what was printed

A value is legible if its text, up to a boundary, is cut into a spelling that denotes the value
itself. Atoms are legible by their texts, sequences and maps because their items are. Every value
that was read is legible, so that reading its text gives it back.
-/
namespace MatrixLisp

namespace Value

mutual

/-- The floats in a value that was read. -/
def floats : Value → List Float
  | number (.float x) => [x]
  | list items => floatsOfItems items
  | vector items => floatsOfItems items
  | map entries => floatsOfEntries entries
  | _ => []

def floatsOfItems : List Value → List Float
  | [] => []
  | v :: rest => v.floats ++ floatsOfItems rest

def floatsOfEntries : List (Value × Value) → List Float
  | [] => []
  | (k, v) :: rest => k.floats ++ v.floats ++ floatsOfEntries rest

end

theorem mem_floatsOfItems {items : List Value} {v : Value} (hv : v ∈ items) {x : Float}
    (hx : x ∈ v.floats) : x ∈ floatsOfItems items := by
  induction items with
  | nil => simp at hv
  | cons first rest ih =>
    rw [floatsOfItems, List.mem_append]
    rcases List.mem_cons.mp hv with rfl | hv
    · exact Or.inl hx
    · exact Or.inr (ih hv)

theorem mem_floatsOfEntries {entries : List (Value × Value)} {e : Value × Value} (he : e ∈ entries)
    {x : Float} (hx : x ∈ e.1.floats ∨ x ∈ e.2.floats) : x ∈ floatsOfEntries entries := by
  induction entries with
  | nil => simp at he
  | cons first rest ih =>
    rw [floatsOfEntries, List.mem_append, List.mem_append]
    rcases List.mem_cons.mp he with rfl | he
    · exact Or.inl hx
    · exact Or.inr (ih he)

end Value

namespace Reader

open Token

/-- The text of a value, up to a boundary, is cut into a spelling that stands in a relation to the
value. -/
def CutAs (R : List TokenKind → Value → Prop) (v : Value) : Prop :=
  ∃ spelling, R spelling v ∧
    ∀ rest, Boundary rest → kinds (v.render.toList ++ rest) = spelling ++ kinds rest

/-- The text of a value, up to a boundary, is cut into a spelling of the value. -/
abbrev Legible (v : Value) : Prop := CutAs Denotes v

section CutAs

variable {R : List TokenKind → Value → Prop}

theorem cutAs_of_isLexeme {kind : TokenKind} {v : Value}
    (h : IsLexeme kind) (hv : R [kind] v) (htext : v.render = kind.text) : CutAs R v := by
  refine ⟨[kind], hv, ?_⟩
  intro rest hrest
  rw [htext, kinds_text_append h hrest]
  rfl

/-- The texts of items with blanks between them are cut into the spellings of the items. -/
theorem exists_parts {items : List Value} (h : ∀ v ∈ items, CutAs R v) :
    ∃ parts : Parts, parts.values = items ∧ (∀ p ∈ parts, R p.1 p.2) ∧
      ∀ rest, Boundary rest →
        kinds ((" ".intercalate (Value.renderItems items)).toList ++ rest) =
          parts.spelling ++ kinds rest := by
  induction items with
  | nil => exact ⟨[], rfl, by simp, by simp [Value.renderItems]⟩
  | cons first others ih =>
    obtain ⟨spelling, hspelling, hkinds⟩ := h first (by simp)
    obtain ⟨parts, rfl, hparts, hothers⟩ := ih fun v hv => h v (by simp [hv])
    refine ⟨(spelling, first) :: parts, rfl, ?_, ?_⟩
    · intro p hp
      rcases List.mem_cons.mp hp with rfl | hp
      · exact hspelling
      · exact hparts p hp
    · intro rest hrest
      cases parts with
      | nil => simpa [Value.renderItems] using hkinds rest hrest
      | cons p parts =>
        have hcut := hothers rest hrest
        simp only [Parts.values_cons, Value.renderItems] at hcut
        simp only [Parts.values_cons, Value.renderItems, String.intercalate_cons_cons,
          String.toList_append, List.append_assoc]
        rw [show (" " : String).toList = [' '] from rfl, List.singleton_append,
          hkinds _ (boundary_cons rfl _), kinds_cons_of_separator rfl, hcut]
        simp

/-- Brackets around items are cut into a spelling between an opener and a closer. -/
theorem exists_bracket_parts (b : Bracket) {items : List Value} (h : ∀ v ∈ items, CutAs R v) :
    ∃ parts : Parts, parts.values = items ∧ (∀ p ∈ parts, R p.1 p.2) ∧
      ∀ rest, Boundary rest →
        kinds ((b.openText ++ " ".intercalate (Value.renderItems items) ++ b.closeText).toList ++
          rest) = (.opener b :: parts.spelling ++ [.closer b]) ++ kinds rest := by
  obtain ⟨parts, hvalues, hparts, hkinds⟩ := exists_parts h
  refine ⟨parts, hvalues, hparts, ?_⟩
  intro rest hrest
  have hopen : ∀ cs, kinds (b.openText.toList ++ cs) = .opener b :: kinds cs := by
    intro cs
    exact kinds_of_lexeme? (by cases b <;> rfl)
  have hclose : Boundary (b.closeText.toList ++ rest) := by
    cases b <;> exact boundary_cons rfl _
  have hcloser : kinds (b.closeText.toList ++ rest) = .closer b :: kinds rest :=
    kinds_text_append (show IsLexeme (.closer b) from trivial) hrest
  rw [String.toList_append, String.toList_append, List.append_assoc, List.append_assoc, hopen,
    hkinds _ hclose, hcloser]
  simp

theorem cutAs_list {items : List Value}
    (hR : ∀ parts : Parts, (∀ p ∈ parts, R p.1 p.2) →
      R (.opener .round :: parts.spelling ++ [.closer .round]) (.list parts.values))
    (h : ∀ v ∈ items, CutAs R v) : CutAs R (.list items) := by
  obtain ⟨parts, rfl, hparts, hkinds⟩ := exists_bracket_parts .round h
  refine ⟨_, hR parts hparts, ?_⟩
  rw [Value.render]
  exact hkinds

theorem cutAs_vector {items : List Value}
    (hR : ∀ parts : Parts, (∀ p ∈ parts, R p.1 p.2) →
      R (.opener .square :: parts.spelling ++ [.closer .square]) (.vector parts.values))
    (h : ∀ v ∈ items, CutAs R v) : CutAs R (.vector items) := by
  obtain ⟨parts, rfl, hparts, hkinds⟩ := exists_bracket_parts .square h
  refine ⟨_, hR parts hparts, ?_⟩
  rw [Value.render]
  exact hkinds

/-- The entries of a map are written like its keys and values by turns. -/
theorem intercalate_renderEntries (d : Dict) :
    " ".intercalate (Value.renderEntries d) = " ".intercalate (Value.renderItems d.flatten) := by
  induction d with
  | nil => rfl
  | cons e rest ih =>
    cases rest with
    | nil => simp [Value.renderEntries, Value.renderItems]
    | cons e' rest =>
      simp only [Value.renderEntries, Value.renderItems, Dict.flatten_cons,
        String.intercalate_cons_cons] at ih ⊢
      rw [ih]
      simp only [String.append_assoc]

theorem cutAs_map {d : Dict}
    (hR : ∀ parts : Parts, (∀ p ∈ parts, R p.1 p.2) → parts.values = d.flatten →
      R (.opener .curly :: parts.spelling ++ [.closer .curly]) (.map d))
    (h : ∀ e ∈ d, CutAs R e.1 ∧ CutAs R e.2) : CutAs R (.map d) := by
  obtain ⟨parts, hvalues, hparts, hkinds⟩ :=
    exists_bracket_parts .curly (Dict.forall_flatten.mpr h)
  refine ⟨_, hR parts hparts hvalues, ?_⟩
  rw [Value.render, intercalate_renderEntries]
  exact hkinds

end CutAs

theorem legible_map {d : Dict} (hdistinct : d.Distinct) (h : ∀ e ∈ d, Legible e.1 ∧ Legible e.2) :
    Legible (.map d) := by
  refine cutAs_map (fun parts hparts hvalues => ?_) h
  have heven : parts.length % 2 = 0 := by
    have hlength : parts.length = d.flatten.length := by rw [← hvalues, Parts.values, List.length_map]
    rw [hlength]
    exact d.length_flatten_mod_two
  have hdenotes := Denotes.map hparts heven
  rwa [hvalues, Dict.pairs_flatten, Dict.ofList_of_distinct hdistinct] at hdenotes

theorem classify_symbol (m : Mark) : Literal.classify m.symbol = .ok (.symbol m.symbol) := by
  cases m <;> rfl

theorem isLexeme_symbol (m : Mark) : IsLexeme (.atom m.symbol) := by
  cases m <;> exact ⟨_, _, rfl, rfl, List.all_eq_true.mp rfl⟩

/-- What an atom is read as is legible. -/
theorem legible_of_classify {s : String} {v : Value} (hlex : IsLexeme (.atom s))
    (h : Literal.classify s = .ok v)
    (hfloats : ∀ x ∈ v.floats, x.isFinite = true → FloatText.ReadsBack x) : Legible v := by
  obtain ⟨q, rfl, hq⟩ | ⟨x, rfl, hx⟩ | ⟨n, rfl⟩ | rfl := Literal.classify_cases h
  · exact cutAs_of_isLexeme (Literal.isLexeme_text q) (.atom (Literal.classify_rational hq)) rfl
  · have hback := hfloats x (by simp [Value.floats]) hx
    obtain ⟨hclassify, hatom⟩ := Literal.classify_float hback hx
    exact cutAs_of_isLexeme hatom (.atom hclassify) rfl
  · exact cutAs_of_isLexeme (Literal.isLexeme_toString _) (.atom (Literal.classify_int n)) rfl
  · exact cutAs_of_isLexeme hlex (.atom h) rfl

/-- The floats of a value, so far as they are finite, have texts that are read as the same floats. -/
def FloatsReadBack (v : Value) : Prop := ∀ x ∈ v.floats, x.isFinite = true → FloatText.ReadsBack x

/-- A spelling of tokens that the lexer can cut. -/
def IsCut (spelling : List TokenKind) : Prop :=
  ∀ kind ∈ spelling, IsLexeme kind ∨ ∃ s, kind = .unterminated s

/-- What a spelling of lexemes denotes is legible. -/
theorem Denotes.legible {spelling : List TokenKind} {v : Value} (h : Denotes spelling v)
    (hlex : IsCut spelling) (hfloats : FloatsReadBack v) : Legible v := by
  induction h with
  | @atom s v hs =>
    obtain hatom | ⟨_, hkind⟩ := hlex (.atom s) (by simp)
    · exact legible_of_classify hatom hs hfloats
    · cases hkind
  | string s =>
    obtain hstring | ⟨_, hkind⟩ := hlex (.string s) (by simp)
    · exact cutAs_of_isLexeme hstring (.string s) rfl
    · cases hkind
  | caret => exact cutAs_of_isLexeme (show IsLexeme .caret from trivial) .caret rfl
  | semicolon => exact cutAs_of_isLexeme (show IsLexeme .semicolon from trivial) .semicolon rfl
  | @list parts _ ih =>
    have hvalues : ∀ v ∈ parts.values, FloatsReadBack v → Legible v :=
      Parts.forall_values fun p hp => ih p hp (Parts.forall_spelling hlex hp)
    refine cutAs_list (fun _ => .list) fun v hv => ?_
    exact hvalues v hv fun x hx => hfloats x (Value.mem_floatsOfItems hv hx)
  | @vector parts _ ih =>
    have hvalues : ∀ v ∈ parts.values, FloatsReadBack v → Legible v :=
      Parts.forall_values fun p hp => ih p hp (Parts.forall_spelling hlex hp)
    refine cutAs_vector (fun _ => .vector) fun v hv => ?_
    exact hvalues v hv fun x hx => hfloats x (Value.mem_floatsOfItems hv hx)
  | @map parts _ _ ih =>
    -- Values that a later entry replaces are not in the map, and neither are their floats.
    have hvalues : ∀ v ∈ parts.values, FloatsReadBack v → Legible v :=
      Parts.forall_values fun p hp => ih p hp (Parts.forall_spelling hlex hp)
    have hentries := Dict.forall_ofList (Dict.forall_pairs hvalues)
    refine legible_map (Dict.distinct_ofList _) fun e he => ?_
    exact ⟨(hentries e he).1 fun x hx => hfloats x (Value.mem_floatsOfEntries he (Or.inl hx)),
      (hentries e he).2 fun x hx => hfloats x (Value.mem_floatsOfEntries he (Or.inr hx))⟩
  | @mark m spelling v _ ih =>
    refine cutAs_list (fun _ => .list) fun item hitem => ?_
    rcases List.mem_cons.mp hitem with rfl | hitem
    · exact cutAs_of_isLexeme (isLexeme_symbol m) (.atom (classify_symbol m)) rfl
    · rw [List.mem_singleton.mp hitem]
      refine ih (fun kind hkind => hlex kind (by simp [hkind])) fun x hx => ?_
      exact hfloats x (Value.mem_floatsOfItems (by simp) hx)

/-- A text whose tokens spell a form is read as the value of the form. -/
theorem Denotes.readFirst {source : String} {v : Value} (h : Denotes (kinds source.toList) v) :
    readFirst source = .ok v := by
  have htokens : (tokenize source).map Token.kind = kinds source.toList := rfl
  obtain ⟨t, ts, span, htokenize, hread⟩ := h.readForm htokens []
  rw [List.append_nil] at hread
  rw [Reader.readFirst, htokenize]
  simp only [hread]
  rfl

theorem Legible.readFirst {v : Value} (h : Legible v) : Reader.readFirst v.render = .ok v := by
  obtain ⟨spelling, hdenotes, hkinds⟩ := h
  have hcut := hkinds [] boundary_nil
  rw [List.append_nil, kinds_nil, List.append_nil] at hcut
  rw [← hcut] at hdenotes
  exact hdenotes.readFirst

/-- Reading undoes printing: the text of a value that was read from a source with a token is read as
the same value. -/
theorem readFirst_render {source : String} {v : Value} (htokens : tokenize source ≠ [])
    (hread : readFirst source = .ok v) (hfloats : FloatsReadBack v) :
    readFirst v.render = .ok v := by
  obtain ⟨t, rest, htokenize⟩ := List.exists_cons_of_ne_nil htokens
  rw [readFirst, htokenize] at hread
  cases hform : readForm t rest with
  | mk result after =>
    simp only [hform] at hread
    cases result with
    | error e => cases hread
    | ok form =>
      cases hread
      obtain ⟨used, hused, hdenotes⟩ := readForm_sound hform
      have hcut : IsCut (used.map Token.kind) := by
        intro kind hkind
        have hmem : kind ∈ kinds source.toList := by
          show kind ∈ (tokenize source).map Token.kind
          rw [htokenize, hused, List.map_append]
          exact List.mem_append_left _ hkind
        exact isLexeme_of_mem_kinds hmem
      exact (hdenotes.legible hcut hfloats).readFirst

theorem readFirst_render_quoted_map :
    readFirst (Value.list [.symbol "quote", .map [(.symbol "a", .float 0.5)]]).render =
      .ok (.list [.symbol "quote", .map [(.symbol "a", .float 0.5)]]) := by
  have htext : FloatText.literal 0.5 = "0.5" := by decide +kernel
  have hback : FloatText.ReadsBack 0.5 := by
    refine ⟨⟨[], ['0'], ['5'], Or.inl rfl, rfl, rfl, by rw [htext]; rfl⟩, ?_⟩
    rw [htext]
    decide +kernel
  have hhalf : Literal.classify "0.5" = .ok (.float 0.5) := by
    rw [← htext]
    exact (Literal.classify_float hback (by decide +kernel)).1
  have hread : readFirst "'\x7ba -6/4 a 0.5\x7d" =
      .ok (.list [.symbol "quote", .map [(.symbol "a", .float 0.5)]]) := by
    have ha : Denotes [.atom "a"] (.symbol "a") := .atom rfl
    have hfraction : Denotes [.atom "-6/4"] (.number (.rational ⟨-3, 2⟩)) := .atom rfl
    have hparts : ∀ p ∈ ([([.atom "a"], .symbol "a"), ([.atom "-6/4"], .number (.rational ⟨-3, 2⟩)),
        ([.atom "a"], .symbol "a"), ([.atom "0.5"], .float 0.5)] : Parts), Denotes p.1 p.2 := by
      simp [ha, hfraction, Denotes.atom hhalf]
    -- The second entry takes the place of the first.
    have hdict : Dict.ofList [(.symbol "a", .number (.rational ⟨-3, 2⟩)),
        (.symbol "a", .float 0.5)] = [(.symbol "a", .float 0.5)] := by
      simp [Dict.ofList, Dict.insert, Dict.isKey, Value.equal]
    have hkinds : kinds "'\x7ba -6/4 a 0.5\x7d".toList = [.mark .quote, .opener .curly, .atom "a",
        .atom "-6/4", .atom "a", .atom "0.5", .closer .curly] := by cbv
    refine Denotes.readFirst ?_
    rw [hkinds, ← hdict]
    exact .mark .quote (.map hparts rfl)
  refine readFirst_render (by cbv; simp) hread ?_
  intro x hx _
  simp only [Value.floats, Value.floatsOfItems, Value.floatsOfEntries, List.nil_append,
    List.append_nil, List.mem_singleton] at hx
  rw [hx]
  exact hback

end Reader

end MatrixLisp
