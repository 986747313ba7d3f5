import Mathlib
import MatrixLisp.Proofs.Token.Cut

/-!
# Maximal munch

The kinds of tokens are told by patterns, each a language over characters, and one more pattern
tells what stands between tokens. A text is cut by maximal munch: no pattern matches more of the
text at the start of a token than the token takes. The tokens stand in the text in order, and what
no token covers are separators.
-/
namespace MatrixLisp.Token

open Text
open scoped Computability

/-- The texts of one character out of a class. -/
def oneOf (p : Char → Prop) : Language Char := {cs | ∃ c, p c ∧ cs = [c]}

/-- The texts of one character that is no blank and none of the given ones. -/
def noneOf (excluded : String) : Language Char :=
  oneOf fun c => isBlank c = false ∧ c ∉ excluded.toList

/-- What a string is made of: a character other than a quote and a backslash, or a backslash with
any character but a line feed. -/
def stringItem : Language Char :=
  oneOf (fun c => c ≠ '\x22' ∧ c ≠ '\\') + {['\\']} * oneOf (· ≠ '\n')

/-- The patterns that a text is cut by. -/
inductive Pattern where
  | separators
  | opener (bracket : Bracket)
  | closer (bracket : Bracket)
  | mark (mark : Mark)
  | caret
  | semicolon
  | string
  | unterminated
  | atom
  deriving DecidableEq

/-- The texts that a pattern matches. -/
def Pattern.language : Pattern → Language Char
  | separators => oneOf (isSeparator · = true) * (oneOf (isSeparator · = true))∗
  | opener b => {b.openText.toList}
  | closer b => {b.closeText.toList}
  | mark m => {m.text.toList}
  | caret => {['^']}
  | semicolon => {[';']}
  | string => {['\x22']} * stringItem∗ * {['\x22']}
  | unterminated => {['\x22']} * stringItem∗
  | atom => noneOf "[]\x7b\x7d()\x27\x22\x60,;~^@" * (noneOf "[]\x7b\x7d()\x27\x22\x60,;")∗

/-- The pattern of a kind of token. Text that nothing matches has none. -/
def pattern? : TokenKind → Option Pattern
  | .opener b => some (.opener b)
  | .closer b => some (.closer b)
  | .mark m => some (.mark m)
  | .caret => some .caret
  | .semicolon => some .semicolon
  | .string _ => some .string
  | .unterminated _ => some .unterminated
  | .atom _ => some .atom
  | .unmatched _ => none

theorem mem_kstar_oneOf {p : Char → Prop} {cs : List Char} :
    cs ∈ (oneOf p)∗ ↔ ∀ c ∈ cs, p c := by
  rw [Language.mem_kstar]
  constructor
  · rintro ⟨pieces, rfl, hpieces⟩ c hc
    obtain ⟨piece, hpiece, hmem⟩ := List.mem_flatten.mp hc
    obtain ⟨d, hd, rfl⟩ := hpieces piece hpiece
    rwa [List.mem_singleton.mp hmem]
  · intro h
    refine ⟨cs.map fun c => [c], (List.flatMap_singleton' cs).symm, ?_⟩
    intro piece hpiece
    obtain ⟨c, hc, rfl⟩ := List.mem_map.mp hpiece
    exact ⟨c, h c hc, rfl⟩

theorem mem_kstar_stringItem {cs : List Char} : cs ∈ stringItem∗ ↔ IsStringBody cs := by
  constructor
  · intro h
    obtain ⟨pieces, rfl, hpieces⟩ := Language.mem_kstar.mp h
    clear h
    induction pieces with
    | nil => exact .nil
    | cons piece pieces ih =>
      have hrest := ih fun other hother => hpieces other (by simp [hother])
      rcases hpieces piece (by simp) with ⟨c, ⟨hq, hb⟩, rfl⟩ | hescaped
      · exact .plain hq hb hrest
      · obtain ⟨_, rfl, _, ⟨c, hn, rfl⟩, rfl⟩ := Language.mem_mul.mp hescaped
        exact .escaped hn hrest
  · intro h
    have hstep : ∀ {piece rest : List Char}, piece ∈ stringItem → rest ∈ stringItem∗ →
        piece ++ rest ∈ stringItem∗ := by
      intro piece rest hpiece hrest
      obtain ⟨pieces, rfl, hpieces⟩ := Language.mem_kstar.mp hrest
      refine Language.mem_kstar.mpr ⟨piece :: pieces, rfl, ?_⟩
      simpa [hpiece] using hpieces
    induction h with
    | nil => exact Language.nil_mem_kstar _
    | @plain c cs hq hb _ ih =>
      have hitem : [c] ∈ stringItem := Or.inl ⟨c, ⟨hq, hb⟩, rfl⟩
      exact hstep hitem ih
    | @escaped c cs hn _ ih =>
      have hitem : ['\\', c] ∈ stringItem :=
        Or.inr (Language.mem_mul.mpr ⟨['\\'], rfl, [c], ⟨c, hn, rfl⟩, rfl⟩)
      exact hstep hitem ih

theorem mem_unterminated_iff {cs : List Char} :
    cs ∈ Pattern.unterminated.language ↔ ∃ body, IsStringBody body ∧ cs = '\x22' :: body := by
  constructor
  · intro h
    obtain ⟨_, rfl, body, hbody, rfl⟩ := Language.mem_mul.mp h
    exact ⟨body, mem_kstar_stringItem.mp hbody, rfl⟩
  · rintro ⟨body, hbody, rfl⟩
    exact Language.mem_mul.mpr ⟨['\x22'], rfl, body, mem_kstar_stringItem.mpr hbody, rfl⟩

theorem mem_string_iff {cs : List Char} :
    cs ∈ Pattern.string.language ↔
      ∃ body, IsStringBody body ∧ cs = '\x22' :: (body ++ ['\x22']) := by
  constructor
  · intro h
    obtain ⟨front, hfront, _, rfl, rfl⟩ := Language.mem_mul.mp h
    obtain ⟨body, hbody, rfl⟩ := mem_unterminated_iff.mp hfront
    exact ⟨body, hbody, rfl⟩
  · rintro ⟨body, hbody, rfl⟩
    have hfront := mem_unterminated_iff.mpr ⟨body, hbody, rfl⟩
    exact Language.mem_mul.mpr ⟨_, hfront, ['\x22'], rfl, rfl⟩

theorem continuesAtom_iff (c : Char) :
    continuesAtom c = true ↔ isBlank c = false ∧ c ∉ "[]\x7b\x7d()\x27\x22\x60,;".toList := by
  simp [continuesAtom, isSeparator, endsAtom, and_assoc, and_left_comm, and_comm]

theorem startsAtom_iff (c : Char) :
    startsAtom c = true ↔ isBlank c = false ∧ c ∉ "[]\x7b\x7d()\x27\x22\x60,;~^@".toList := by
  rw [startsAtom, Bool.and_eq_true, continuesAtom_iff]
  simp [and_assoc]

theorem mem_atom_iff {cs : List Char} :
    cs ∈ Pattern.atom.language ↔
      ∃ c rest, cs = c :: rest ∧ startsAtom c = true ∧ ∀ d ∈ rest, continuesAtom d = true := by
  constructor
  · intro h
    obtain ⟨_, ⟨c, hc, rfl⟩, rest, hrest, rfl⟩ := Language.mem_mul.mp h
    refine ⟨c, rest, rfl, (startsAtom_iff c).mpr hc, ?_⟩
    intro d hd
    exact (continuesAtom_iff d).mpr (mem_kstar_oneOf.mp hrest d hd)
  · rintro ⟨c, rest, rfl, hc, hrest⟩
    refine Language.mem_mul.mpr
      ⟨[c], ⟨c, (startsAtom_iff c).mp hc, rfl⟩, rest, mem_kstar_oneOf.mpr ?_, rfl⟩
    intro d hd
    exact (continuesAtom_iff d).mp (hrest d hd)

/-- No body of a string that a text starts with is longer than the one that is taken. -/
theorem length_le_length_stringBody {body : List Char} (h : IsStringBody body) (rest : List Char) :
    body.length ≤ (stringBody (body ++ rest)).1.length := by
  induction h with
  | nil => exact Nat.zero_le _
  | plain hq hb _ ih =>
    rw [List.cons_append, stringBody_plain hq hb]
    exact Nat.succ_le_succ ih
  | escaped hn _ ih =>
    rw [List.cons_append, List.cons_append, stringBody_escaped hn]
    exact Nat.succ_le_succ (Nat.succ_le_succ ih)

theorem lexeme?_quote (rest : List Char) :
    lexeme? ('\x22' :: rest) = some (stringLexeme rest) := rfl

/-- What is left behind a string is what is left behind its body, less a closing quote. -/
theorem length_stringLexeme_le_body (rest : List Char) :
    (stringLexeme rest).2.length ≤ (stringBody rest).2.length := by
  unfold stringLexeme
  split
  · rename_i h
    rw [h]
    exact Nat.le_succ _
  · rename_i h
    rw [h]

/-- No pattern matches more of a text than the lexeme at its start takes. -/
theorem lexeme?_longest {cs after : List Char} {kind : TokenKind}
    (h : lexeme? cs = some (kind, after)) {p : Pattern} {matched : List Char}
    (hp : matched ∈ p.language) (hmatched : matched <+: cs) :
    matched.length + after.length ≤ cs.length := by
  have hshort := length_lt_of_lexeme? h
  obtain ⟨rest, rfl⟩ := hmatched
  cases p with
  | separators =>
    obtain ⟨_, ⟨c, hc, rfl⟩, more, -, rfl⟩ := Language.mem_mul.mp hp
    rw [List.append_assoc, List.singleton_append, lexeme?_of_separator hc] at h
    cases h
  | opener b =>
    obtain rfl : matched = b.openText.toList := hp
    cases b <;> exact (Nat.add_comm ..).trans_le hshort
  | closer b =>
    obtain rfl : matched = b.closeText.toList := hp
    cases b <;> exact (Nat.add_comm ..).trans_le hshort
  | mark m =>
    obtain rfl : matched = m.text.toList := hp
    cases m with
    | spliceUnquote =>
      cases h
      exact (Nat.add_comm ..).le
    | _ => exact (Nat.add_comm ..).trans_le hshort
  | caret =>
    obtain rfl : matched = ['^'] := hp
    exact (Nat.add_comm ..).trans_le hshort
  | semicolon =>
    obtain rfl : matched = [';'] := hp
    exact (Nat.add_comm ..).trans_le hshort
  | string =>
    obtain ⟨body, hbody, rfl⟩ := mem_string_iff.mp hp
    have hcut : '\x22' :: (body ++ ['\x22']) ++ rest = '\x22' :: (body ++ '\x22' :: rest) := by simp
    rw [hcut, lexeme?_quote, stringLexeme, stringBody_append hbody] at h
    cases h
    exact (List.length_append ..).ge
  | unterminated =>
    obtain ⟨body, hbody, rfl⟩ := mem_unterminated_iff.mp hp
    rw [List.cons_append, lexeme?_quote] at h
    have hafter := length_stringLexeme_le_body (body ++ rest)
    have hlong := length_le_length_stringBody hbody rest
    have hwhole := congrArg List.length (stringBody_sound (body ++ rest)).2
    rw [Option.some.inj h] at hafter
    simp only [List.length_append, List.cons_append, List.length_cons] at hafter hwhole ⊢
    omega
  | atom =>
    obtain ⟨c, run, rfl, hc, hrun⟩ := mem_atom_iff.mp hp
    rw [List.cons_append, lexeme?_of_startsAtom hc, List.dropWhile_append_of_pos hrun] at h
    cases h
    have hafter := length_dropWhile_le continuesAtom rest
    simp only [List.cons_append, List.length_cons, List.length_append]
    omega

/-- Only a quote starts a string that lacks its closing quote. -/
theorem exists_quote_of_unterminated {cs after : List Char} {s : String}
    (h : lexeme? cs = some (.unterminated s, after)) :
    ∃ rest, cs = '\x22' :: rest ∧ stringLexeme rest = (.unterminated s, after) := by
  cases cs with
  | nil => cases h
  | cons c rest =>
    by_cases hq : c = '\x22'
    · subst hq
      exact ⟨rest, rfl, Option.some.inj h⟩
    · cases hs : single? c with
      | none =>
        rw [lexeme?_of_single?_eq_none hs hq] at h
        split_ifs at h
        cases h
      | some kind =>
        obtain ⟨-, -, hkind, -⟩ := single?_some hs
        rcases lexeme?_of_single? hs rest with hlex | ⟨more, -, hlex⟩
        · rw [hlex] at h
          cases h
          cases hkind
        · rw [hlex] at h
          cases h

/-- A string lacks its closing quote only if no quote follows its body. -/
theorem stringBody_of_unterminated {rest after : List Char} {s : String}
    (h : stringLexeme rest = (.unterminated s, after)) :
    ∃ body, s.toList = '\x22' :: body ∧ stringBody rest = (body, after) ∧
      after.head? ≠ some '\x22' := by
  unfold stringLexeme at h
  split at h
  · cases h
  · rename_i body after' hquote hbody
    cases h
    refine ⟨body, String.toList_ofList, hbody, ?_⟩
    intro hhead
    obtain ⟨more, rfl⟩ := List.head?_eq_some_iff.mp hhead
    exact hquote more rfl

/-- Where a string lacks its closing quote, the pattern of complete strings matches nothing. -/
theorem not_string_of_unterminated {cs after : List Char} {s : String}
    (h : lexeme? cs = some (.unterminated s, after)) {matched : List Char}
    (hmatched : matched <+: cs) : matched ∉ Pattern.string.language := by
  intro hstring
  obtain ⟨rest, rfl, hlexeme⟩ := exists_quote_of_unterminated h
  obtain ⟨body, -, hbody, hhead⟩ := stringBody_of_unterminated hlexeme
  obtain ⟨body', hbody', rfl⟩ := mem_string_iff.mp hstring
  obtain ⟨more, hmore⟩ := hmatched
  have hrest : rest = body' ++ '\x22' :: more := by simpa using (List.cons.inj hmore).2.symm
  rw [hrest, stringBody_append hbody'] at hbody
  cases hbody
  exact hhead rfl

/-- A lexeme matches the pattern of its kind. -/
theorem exists_pattern_of_lexeme? {cs after : List Char} {kind : TokenKind}
    (h : lexeme? cs = some (kind, after)) :
    ∃ p, pattern? kind = some p ∧ kind.text.toList ∈ p.language := by
  obtain ⟨-, hkind | ⟨s, rfl⟩⟩ := text_append_of_lexeme? h
  · cases kind with
    | string s =>
      obtain ⟨body, hs, hbody⟩ := hkind
      exact ⟨.string, rfl, mem_string_iff.mpr ⟨body, hbody, hs⟩⟩
    | atom s => exact ⟨.atom, rfl, mem_atom_iff.mpr hkind⟩
    | unterminated s => cases hkind
    | unmatched s => cases hkind
    | opener b => exact ⟨.opener b, rfl, rfl⟩
    | closer b => exact ⟨.closer b, rfl, rfl⟩
    | mark m => exact ⟨.mark m, rfl, rfl⟩
    | caret => exact ⟨.caret, rfl, rfl⟩
    | semicolon => exact ⟨.semicolon, rfl, rfl⟩
  · obtain ⟨rest, rfl, hlexeme⟩ := exists_quote_of_unterminated h
    obtain ⟨body, hs, hbody, -⟩ := stringBody_of_unterminated hlexeme
    have hsound := (stringBody_sound rest).1
    rw [hbody] at hsound
    exact ⟨.unterminated, rfl, mem_unterminated_iff.mpr ⟨body, hsound, hs⟩⟩

/-- Every token is the lexeme at a place of the text. -/
theorem exists_split_of_mem_scan {offset : ℕ} {cs : List Char} {t : Token}
    (h : t ∈ scan offset cs) :
    ∃ before after, cs = before ++ t.kind.text.toList ++ after ∧
      t.span = .ofRange (offset + width before)
        (offset + width before + t.kind.text.utf8ByteSize) ∧
      lexeme? (t.kind.text.toList ++ after) = some (t.kind, after) := by
  obtain ⟨used, others, hscan⟩ := List.append_of_mem h
  obtain ⟨before, after, hsplit, hspan, hlex, -⟩ := exists_cut hscan
  exact ⟨before, after, hsplit, hspan, hlex⟩

/-- No token has a reversed span. -/
theorem start_le_stop_of_mem_scan {offset : ℕ} {cs : List Char} {t : Token}
    (h : t ∈ scan offset cs) : t.span.start ≤ t.span.stop := by
  obtain ⟨before, after, -, hspan, -⟩ := exists_split_of_mem_scan h
  rw [hspan]
  exact min_le_min_right _ (Nat.le_add_right ..)

/-- Tokens follow one another, from where the scan starts. -/
theorem scan_ordered (offset : ℕ) (cs : List Char) :
    (scan offset cs).Pairwise (fun a b => a.span.stop ≤ b.span.start) ∧
      ∀ t ∈ scan offset cs, min offset Span.maxOffset ≤ t.span.start := by
  induction offset, cs using scan_induction with
  | nil offset => simp
  | separator offset c rest tokens _ ih =>
    obtain ⟨hordered, hstart⟩ := ih
    refine ⟨hordered, fun t ht => ?_⟩
    have hle := hstart t ht
    omega
  | lexeme offset kind rest tokens _ ih =>
    obtain ⟨hordered, hstart⟩ := ih
    refine ⟨List.pairwise_cons.mpr ⟨hstart, hordered⟩, ?_⟩
    intro t ht
    rcases List.mem_cons.mp ht with rfl | ht
    · exact le_rfl
    · have hle := hstart t ht
      omega

/-- A character that separates nothing lies in a token. -/
theorem exists_token_of_not_separator (offset : ℕ) {cs before after : List Char} {c : Char}
    (hcs : cs = before ++ c :: after) (hc : isSeparator c = false)
    (hoffset : offset + width cs ≤ Span.maxOffset) :
    ∃ t ∈ scan offset cs,
      t.span.start ≤ offset + width before ∧ offset + width before < t.span.stop := by
  induction offset, cs using scan_induction generalizing before with
  | nil offset => simp at hcs
  | separator offset d rest tokens hd ih =>
    cases before with
    | nil =>
      cases hcs
      rw [hd] at hc
      cases hc
    | cons _ before =>
      cases hcs
      rw [width_cons, ← Nat.add_assoc] at hoffset ⊢
      exact ih rfl hoffset
  | lexeme offset kind rest tokens _ ih =>
    rw [width_append, width_toList, ← Nat.add_assoc] at hoffset
    rcases List.append_eq_append_iff.mp hcs with ⟨more, rfl, hrest⟩ | ⟨more, htext, hrest⟩
    · obtain ⟨t, ht, hspan⟩ := ih hrest hoffset
      refine ⟨t, by simp [ht], ?_⟩
      rwa [width_append, width_toList, ← Nat.add_assoc]
    · cases more with
      | nil =>
        -- The character stands right behind the lexeme.
        have hfirst : rest = [] ++ c :: after := hrest.symm
        obtain ⟨t, ht, hspan⟩ := ih hfirst hoffset
        refine ⟨t, by simp [ht], ?_⟩
        have hwidth := congrArg width htext
        rw [List.append_nil, width_toList] at hwidth
        rwa [← hwidth]
      | cons d more =>
        obtain ⟨rfl, -⟩ := List.cons.inj hrest
        refine ⟨_, List.mem_cons_self, ?_⟩
        have hwidth := congrArg width htext
        have hpos := c.utf8Size_pos
        rw [width_toList, width_append, width_cons] at hwidth
        rw [Span.ofRange_eq (by omega) (by omega)]
        constructor
        · exact Nat.le_add_right ..
        · show offset + width before < offset + kind.text.utf8ByteSize
          omega

/-- How a token stands in a text, between what is before and what is after it. -/
structure Munched (source : List Char) (t : Token) (before after : List Char) : Prop where
  split : source = before ++ t.kind.text.toList ++ after
  start_eq : t.span.start = width before
  stop_eq : t.span.stop = width (before ++ t.kind.text.toList)
  nonempty : t.span.start < t.span.stop
  /-- The token matches the pattern of its kind. -/
  matched : ∃ p, pattern? t.kind = some p ∧ t.kind.text.toList ∈ p.language
  /-- No pattern matches more from the start of the token on. -/
  longest : ∀ p : Pattern, ∀ cs ∈ p.language, cs <+: t.kind.text.toList ++ after →
    cs.length ≤ t.kind.text.toList.length
  /-- A tilde is not cut off from an `@` behind it. -/
  unquote : t.kind = .mark .unquote → after.head? ≠ some '@'
  /-- An atom is not cut short. -/
  atom : ∀ s, t.kind = .atom s → ∀ c ∈ after.head?,
    isBlank c = true ∨ c ∈ "[]\x7b\x7d()\x27\x22\x60,;".toList
  /-- Where a string is said to lack its closing quote, no complete string stands. -/
  unterminated : ∀ s, t.kind = .unterminated s → ∀ cs ∈ Pattern.string.language,
    ¬cs <+: t.kind.text.toList ++ after

/-- Every token of a text that is not too long for spans stands in it by maximal munch. -/
theorem exists_munched {source : String} (h : source.utf8ByteSize ≤ Span.maxOffset) {t : Token}
    (ht : t ∈ tokenize source) : ∃ before after, Munched source.toList t before after := by
  obtain ⟨before, after, hsplit, hspan, hlex⟩ := exists_split_of_mem_scan ht
  refine ⟨before, after, ?_⟩
  have hwidth := congrArg width hsplit
  rw [width_toList, width_append, width_append, width_toList] at hwidth
  rw [Nat.zero_add, Span.ofRange_eq (by omega) (by omega)] at hspan
  have hpos : 0 < t.kind.text.utf8ByteSize := by
    rw [← width_toList]
    exact width_pos_of_lexeme? hlex
  have hstops := stops_of_lexeme? hlex
  constructor
  · exact hsplit
  · rw [hspan]
  · rw [hspan, width_append, width_toList]
  · rw [hspan]
    exact Nat.lt_add_of_pos_right hpos
  · exact exists_pattern_of_lexeme? hlex
  · intro p cs hcs hstarts
    have hle := lexeme?_longest hlex hcs hstarts
    rw [List.length_append] at hle
    omega
  · intro hkind
    rw [hkind] at hstops
    exact hstops
  · intro s hkind c hc
    rw [hkind] at hstops
    have hends : continuesAtom c = false := hstops c hc
    rw [← Bool.not_eq_true, continuesAtom_iff, not_and_or, not_not, Bool.not_eq_false] at hends
    exact hends
  · intro s hkind cs hcs hstarts
    rw [hkind] at hlex hstarts
    exact not_string_of_unterminated hlex hstarts hcs

/-- Cutting a text into tokens is its decomposition by maximal munch, and nothing is lost: tokens
follow one another, each stands in the text where its span says and takes all that a pattern can
match there, and a character that no span covers is a blank or a comma. -/
theorem tokenize_maximalMunch (source : String) (h : source.utf8ByteSize ≤ Span.maxOffset) :
    (tokenize source).Pairwise (fun a b => a.span.stop ≤ b.span.start) ∧
    (∀ t ∈ tokenize source, ∃ before after, Munched source.toList t before after) ∧
    (∀ t ∈ tokenize source, ∀ s, t.kind ≠ .unmatched s) ∧
    (∀ before c after, source.toList = before ++ c :: after →
      (∀ t ∈ tokenize source, ¬(t.span.start ≤ width before ∧ width before < t.span.stop)) →
      isBlank c = true ∨ c = ',') := by
  refine ⟨(scan_ordered 0 _).1, fun t ht => exists_munched h ht, ?_, ?_⟩
  · intro t ht s hkind
    obtain ⟨before, after, hmunched⟩ := exists_munched h ht
    obtain ⟨p, hp, -⟩ := hmunched.matched
    rw [hkind] at hp
    cases hp
  · intro before c after hsplit houtside
    have hwidth : 0 + width source.toList ≤ Span.maxOffset := by
      rwa [width_toList, Nat.zero_add]
    by_contra hnot
    have hsep : isSeparator c = false := by
      simpa [isSeparator] using hnot
    obtain ⟨t, ht, hcovers⟩ := exists_token_of_not_separator 0 hsplit hsep hwidth
    rw [Nat.zero_add] at hcovers
    exact houtside t ht hcovers

/-- A string that a backslash before a line feed keeps from its closing quote. -/
theorem tokenize_maximalMunch_unterminated :
    "~@\x22é\\\n\x22".utf8ByteSize ≤ Span.maxOffset ∧
      ∃ before after,
        Munched "~@\x22é\\\n\x22".toList ⟨.unterminated "\x22é", ⟨2, 5⟩⟩ before after := by
  have hsize : "~@\x22é\\\n\x22".utf8ByteSize ≤ Span.maxOffset := by decide
  have htokens : tokenize "~@\x22é\\\n\x22" = [⟨.mark .spliceUnquote, ⟨0, 2⟩⟩,
      ⟨.unterminated "\x22é", ⟨2, 5⟩⟩, ⟨.atom "\\", ⟨5, 6⟩⟩,
      ⟨.unterminated "\x22", ⟨7, 8⟩⟩] := by cbv
  refine ⟨hsize, (tokenize_maximalMunch _ hsize).2.1 _ ?_⟩
  rw [htokens]
  simp

end MatrixLisp.Token
