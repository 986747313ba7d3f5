import Mathlib.Tactic
import MatrixLisp.Reader.Form

/-!
# The grammar of forms

A form is spelled by a sequence of token kinds, and its value is told by a grammar that knows
nothing of stacks. The reader follows it in both directions: fed with a spelling it delivers the
value, whatever contexts are open around it, and what it reads as a form is a spelling of its value.
-/
namespace MatrixLisp.Reader

/-- Consecutive spellings, each with its value. -/
abbrev Parts := List (List TokenKind × Value)

namespace Parts

def spelling (parts : Parts) : List TokenKind := (parts.map Prod.fst).flatten

def values (parts : Parts) : List Value := parts.map Prod.snd

@[simp] theorem spelling_nil : spelling [] = [] := rfl

@[simp] theorem spelling_cons (p : List TokenKind × Value) (parts : Parts) :
    spelling (p :: parts) = p.1 ++ spelling parts := rfl

@[simp] theorem values_nil : values [] = [] := rfl

@[simp] theorem values_cons (p : List TokenKind × Value) (parts : Parts) :
    values (p :: parts) = p.2 :: values parts := rfl

@[simp] theorem spelling_append (parts more : Parts) :
    spelling (parts ++ more) = spelling parts ++ spelling more := by simp [spelling]

@[simp] theorem values_append (parts more : Parts) :
    values (parts ++ more) = values parts ++ values more := by simp [values]

theorem forall_values {parts : Parts} {P : Value → Prop} (h : ∀ p ∈ parts, P p.2) :
    ∀ v ∈ parts.values, P v := by
  intro v hv
  obtain ⟨p, hp, rfl⟩ := List.mem_map.mp hv
  exact h p hp

theorem mem_spelling {parts : Parts} {kind : TokenKind} :
    kind ∈ parts.spelling ↔ ∃ p ∈ parts, kind ∈ p.1 := by
  simp [spelling]

/-- What holds of all tokens of a bracket holds of the tokens of each part. -/
theorem forall_spelling {parts : Parts} {opener : TokenKind} {after : List TokenKind}
    {P : TokenKind → Prop} (h : ∀ kind ∈ opener :: parts.spelling ++ after, P kind)
    {p : List TokenKind × Value} (hp : p ∈ parts) : ∀ kind ∈ p.1, P kind := by
  intro kind hkind
  exact h kind (by simp [mem_spelling.mpr ⟨p, hp, hkind⟩])

end Parts

/-- The spellings of forms and the values that they denote. -/
inductive Denotes : List TokenKind → Value → Prop
  | atom {s : String} {v : Value} : Literal.classify s = .ok v → Denotes [.atom s] v
  | string (s : String) : Denotes [.string s] (.symbol s)
  | caret : Denotes [.caret] (.symbol "^")
  | semicolon : Denotes [.semicolon] (.symbol ";")
  | list {parts : Parts} : (∀ p ∈ parts, Denotes p.1 p.2) →
      Denotes (.opener .round :: parts.spelling ++ [.closer .round]) (.list parts.values)
  | vector {parts : Parts} : (∀ p ∈ parts, Denotes p.1 p.2) →
      Denotes (.opener .square :: parts.spelling ++ [.closer .square]) (.vector parts.values)
  | map {parts : Parts} : (∀ p ∈ parts, Denotes p.1 p.2) → parts.length % 2 = 0 →
      Denotes (.opener .curly :: parts.spelling ++ [.closer .curly])
        (.map (Dict.ofList (Dict.pairs parts.values)))
  | mark (m : Mark) {spelling : List TokenKind} {v : Value} : Denotes spelling v →
      Denotes (.mark m :: spelling) (.list [.symbol m.symbol, v])

/-- A bracket around parts denotes what the reader assembles of their values. -/
theorem Denotes.bracket {b : Bracket} {span : Span} {parts : Parts} {v : Value}
    (hparts : ∀ p ∈ parts, Denotes p.1 p.2) (h : assemble b span parts.values = .ok v) :
    Denotes (.opener b :: parts.spelling ++ [.closer b]) v := by
  cases b with
  | round =>
    cases h
    exact .list hparts
  | square =>
    cases h
    exact .vector hparts
  | curly =>
    unfold assemble at h
    split_ifs at h with heven
    cases h
    exact .map hparts (by simpa [Parts.values] using heven)

/-- Goes on from where the reading of a form stands after its last token so far. -/
def resume (start : Span) (last : Token) (rest : List Token) :
    Progress → Except ReadError Form × List Token
  | .done v => (.ok (v, start.cover (.point last.span.stop)), rest)
  | .waiting top below => continueForm start top below rest

/-- Takes a token in, in any stack of contexts, and goes on. -/
def feed (start : Span) (stack : List Pending) (t : Token) (rest : List Token) :
    Except ReadError Form × List Token :=
  match advance stack t with
  | .error e => (.error e, rest)
  | .ok progress => resume start t rest progress

theorem continueForm_cons (start : Span) (top : Pending) (below : List Pending) (t : Token)
    (rest : List Token) :
    continueForm start top below (t :: rest) = feed start (top :: below) t rest := by
  rw [continueForm, feed]
  cases advance (top :: below) t with
  | error e => rfl
  | ok progress => cases progress <;> rfl

theorem readForm_eq_feed (t : Token) (rest : List Token) :
    readForm t rest = feed t.span [] t rest := by
  rw [readForm, feed]
  cases advance [] t with
  | error e => rfl
  | ok progress => cases progress <;> rfl

/-- Tokens that deliver a value to any stack of contexts. -/
def Delivers (tokens : List Token) (v : Value) : Prop :=
  ∃ t ts last, tokens = t :: ts ∧ ∀ stack start rest,
    feed start stack t (ts ++ rest) = resume start last rest (deliver v stack)

theorem delivers_singleton {t : Token} {v : Value}
    (h : ∀ stack, advance stack t = .ok (deliver v stack)) : Delivers [t] v := by
  refine ⟨t, [], t, rfl, ?_⟩
  intro stack start rest
  rw [feed, h]
  rfl

/-- Delivered to an open bracket, a value becomes its last item. -/
theorem Delivers.continueForm_append {tokens : List Token} {v : Value} (h : Delivers tokens v)
    (start opened : Span) (b : Bracket) (items : List Value) (below : List Pending)
    (rest : List Token) :
    continueForm start (.bracket b opened items) below (tokens ++ rest) =
      continueForm start (.bracket b opened (v :: items)) below rest := by
  obtain ⟨t, ts, last, rfl, hfeed⟩ := h
  rw [List.cons_append, continueForm_cons, hfeed]
  rfl

/-- Tokens of a spelling deliver its value. -/
def Complete (spelling : List TokenKind) (v : Value) : Prop :=
  ∀ tokens : List Token, tokens.map Token.kind = spelling → Delivers tokens v

theorem continueForm_parts {parts : Parts} (h : ∀ p ∈ parts, Complete p.1 p.2) (start opened : Span)
    (b : Bracket) (items : List Value) (below : List Pending) {tokens : List Token}
    (htokens : tokens.map Token.kind = parts.spelling) (rest : List Token) :
    continueForm start (.bracket b opened items) below (tokens ++ rest) =
      continueForm start (.bracket b opened (parts.values.reverse ++ items)) below rest := by
  induction parts generalizing items tokens with
  | nil =>
    have hnil : tokens = [] := by simpa using htokens
    simp [hnil]
  | cons p parts ih =>
    obtain ⟨first, others, rfl, hfirst, hothers⟩ := List.map_eq_append_iff.mp htokens
    have hp := h p (by simp) first hfirst
    rw [List.append_assoc, hp.continueForm_append, ih (fun q hq => h q (by simp [hq])) _ hothers]
    simp

/-- Brackets around delivered parts deliver what is assembled of their values. -/
theorem complete_bracket {b : Bracket} {parts : Parts} {v : Value}
    (h : ∀ p ∈ parts, Complete p.1 p.2) (hv : ∀ span, assemble b span parts.values = .ok v) :
    Complete (.opener b :: parts.spelling ++ [.closer b]) v := by
  intro tokens htokens
  obtain ⟨front, back, rfl, hfront, hback⟩ := List.map_eq_append_iff.mp htokens
  obtain ⟨opener, inner, rfl, hopener, hinner⟩ := List.map_eq_cons_iff.mp hfront
  obtain ⟨closer, none, rfl, hcloser, hnone⟩ := List.map_eq_cons_iff.mp hback
  have hnil : none = [] := by simpa using hnone
  subst hnil
  refine ⟨opener, inner ++ [closer], closer, rfl, ?_⟩
  intro stack start rest
  have hopen : advance stack opener = .ok (.waiting (.bracket b opener.span []) stack) := by
    rw [advance, hopener]
  have hclose : advance (.bracket b opener.span parts.values.reverse :: stack) closer =
      .ok (deliver v stack) := by
    rw [advance, hcloser]
    show close b closer.span (.bracket b opener.span parts.values.reverse :: stack) = _
    rw [close, if_pos rfl, List.reverse_reverse, hv]
    rfl
  rw [feed, hopen]
  show continueForm start (.bracket b opener.span []) stack (inner ++ [closer] ++ rest) = _
  rw [List.append_assoc, continueForm_parts h _ _ _ _ _ hinner, List.append_nil]
  show continueForm start (.bracket b opener.span parts.values.reverse) stack (closer :: rest) = _
  rw [continueForm_cons, feed, hclose]

theorem complete_singleton {kind : TokenKind} {v : Value}
    (h : ∀ stack span, advance stack ⟨kind, span⟩ = .ok (deliver v stack)) :
    Complete [kind] v := by
  intro tokens htokens
  obtain ⟨⟨kind', span⟩, none, rfl, rfl, hnone⟩ := List.map_eq_cons_iff.mp htokens
  have hnil : none = [] := by simpa using hnone
  subst hnil
  exact delivers_singleton fun stack => h stack span

/-- The reader delivers what a spelling denotes. -/
theorem Denotes.complete {spelling : List TokenKind} {v : Value} (h : Denotes spelling v) :
    Complete spelling v := by
  induction h with
  | atom hs =>
    refine complete_singleton fun stack span => ?_
    simp [advance, hs]
  | string s => exact complete_singleton fun _ _ => rfl
  | caret => exact complete_singleton fun _ _ => rfl
  | semicolon => exact complete_singleton fun _ _ => rfl
  | list _ ih => exact complete_bracket ih fun _ => rfl
  | vector _ ih => exact complete_bracket ih fun _ => rfl
  | @map parts _ heven ih =>
    refine complete_bracket ih fun span => ?_
    have hlength : parts.values.length % 2 = 0 := by simpa [Parts.values] using heven
    simp [assemble, hlength]
  | mark m _ ih =>
    intro tokens htokens
    obtain ⟨t, others, rfl, ht, hothers⟩ := List.map_eq_cons_iff.mp htokens
    obtain ⟨t', ts, last, rfl, hfeed⟩ := ih others hothers
    refine ⟨t, t' :: ts, last, rfl, ?_⟩
    intro stack start rest
    have hopen : advance stack t = .ok (.waiting (.mark m t.span) stack) := by
      rw [advance, ht]
    rw [feed, hopen]
    show continueForm start (.mark m t.span) stack (t' :: (ts ++ rest)) = _
    rw [continueForm_cons, hfeed]
    rfl

/-- What open contexts have taken in so far: each bracket its opener and the spellings of its items,
each mark itself. -/
inductive Open : List Pending → List TokenKind → Prop
  | nil : Open [] []
  | bracket (b : Bracket) (opened : Span) {parts : Parts} {below : List Pending}
      {spelling : List TokenKind} : Open below spelling → (∀ p ∈ parts, Denotes p.1 p.2) →
      Open (.bracket b opened parts.values.reverse :: below)
        (spelling ++ .opener b :: parts.spelling)
  | mark (m : Mark) (span : Span) {below : List Pending} {spelling : List TokenKind} :
      Open below spelling → Open (.mark m span :: below) (spelling ++ [.mark m])

/-- What a spelling has led to: a form that it denotes, or contexts that it has opened. -/
def Reached (spelling : List TokenKind) : Progress → Prop
  | .done v => Denotes spelling v
  | .waiting top below => Open (top :: below) spelling

theorem Open.deliver {stack : List Pending} {taken : List TokenKind} (h : Open stack taken)
    {spelling : List TokenKind} {v : Value} (hv : Denotes spelling v) :
    Reached (taken ++ spelling) (deliver v stack) := by
  induction h generalizing spelling v with
  | nil => exact hv
  | @bracket b opened parts below taken hbelow hparts _ =>
    have hmore : ∀ p ∈ parts ++ [(spelling, v)], Denotes p.1 p.2 := by
      intro p hp
      rcases List.mem_append.mp hp with hp | hp
      · exact hparts p hp
      · rw [List.mem_singleton.mp hp]
        exact hv
    have hopen := Open.bracket b opened hbelow hmore
    simpa [Reader.deliver, Reached] using hopen
  | mark m span _ ih =>
    have hmark := ih (Denotes.mark m hv)
    simpa [Reader.deliver] using hmark

theorem Open.close {stack : List Pending} {taken : List TokenKind} (h : Open stack taken)
    {b : Bracket} {span : Span} {progress : Progress} (hclose : close b span stack = .ok progress) :
    Reached (taken ++ [.closer b]) progress := by
  cases h with
  | nil => cases hclose
  | mark => cases hclose
  | @bracket b' opened parts below taken hbelow hparts =>
    rw [Reader.close, List.reverse_reverse] at hclose
    split_ifs at hclose with hb
    subst hb
    cases hv : assemble b (opened.cover (.point span.stop)) parts.values with
    | error e =>
      rw [hv] at hclose
      cases hclose
    | ok v =>
      rw [hv] at hclose
      cases hclose
      have hdeliver := hbelow.deliver (Denotes.bracket hparts hv)
      simpa using hdeliver

/-- Taking a token in keeps account of it. -/
theorem Open.advance {stack : List Pending} {taken : List TokenKind} (h : Open stack taken)
    {t : Token} {progress : Progress} (hadvance : advance stack t = .ok progress) :
    Reached (taken ++ [t.kind]) progress := by
  obtain ⟨kind, span⟩ := t
  cases kind with
  | opener b =>
    cases hadvance
    have hempty : ∀ p ∈ ([] : Parts), Denotes p.1 p.2 := by simp
    exact Open.bracket b span h hempty
  | mark m =>
    cases hadvance
    exact Open.mark m span h
  | closer b => exact h.close hadvance
  | caret =>
    cases hadvance
    exact h.deliver .caret
  | semicolon =>
    cases hadvance
    exact h.deliver .semicolon
  | string s =>
    cases hadvance
    exact h.deliver (.string s)
  | unterminated s => cases hadvance
  | unmatched s => cases hadvance
  | atom s =>
    cases hs : Literal.classify s with
    | ok v =>
      simp only [Reader.advance, hs] at hadvance
      cases hadvance
      exact h.deliver (.atom hs)
    | error f =>
      simp only [Reader.advance, hs] at hadvance
      cases hadvance

theorem continueForm_sound {start : Span} {top : Pending} {below : List Pending}
    {taken : List TokenKind} (h : Open (top :: below) taken) {tokens rest : List Token} {form : Form}
    (hform : continueForm start top below tokens = (.ok form, rest)) :
    ∃ used, tokens = used ++ rest ∧ Denotes (taken ++ used.map Token.kind) form.1 := by
  induction tokens generalizing top below taken with
  | nil => cases hform
  | cons t tokens ih =>
    rw [continueForm] at hform
    split at hform
    · cases hform
    · rename_i v hadvance
      cases hform
      exact ⟨[t], rfl, h.advance hadvance⟩
    · rename_i top' below' hadvance
      obtain ⟨used, rfl, hdenotes⟩ := ih (h.advance hadvance) hform
      exact ⟨t :: used, rfl, by simpa using hdenotes⟩

/-- The tokens that the reader takes for a form spell its value. -/
theorem readForm_sound {t : Token} {tokens rest : List Token} {form : Form}
    (h : readForm t tokens = (.ok form, rest)) :
    ∃ used, t :: tokens = used ++ rest ∧ Denotes (used.map Token.kind) form.1 := by
  rw [readForm] at h
  split at h
  · cases h
  · rename_i v hadvance
    cases h
    exact ⟨[t], rfl, Open.nil.advance hadvance⟩
  · rename_i top below hadvance
    obtain ⟨used, rfl, hdenotes⟩ := continueForm_sound (Open.nil.advance hadvance) h
    exact ⟨t :: used, rfl, by simpa using hdenotes⟩

/-- Tokens of a spelling are read as one form, and nothing more is taken. -/
theorem Denotes.readForm {spelling : List TokenKind} {v : Value} (h : Denotes spelling v)
    {tokens : List Token} (htokens : tokens.map Token.kind = spelling) (rest : List Token) :
    ∃ t ts span, tokens = t :: ts ∧ readForm t (ts ++ rest) = (.ok (v, span), rest) := by
  obtain ⟨t, ts, last, rfl, hfeed⟩ := h.complete tokens htokens
  refine ⟨t, ts, t.span.cover (.point last.span.stop), rfl, ?_⟩
  rw [readForm_eq_feed, hfeed]
  rfl

end MatrixLisp.Reader
