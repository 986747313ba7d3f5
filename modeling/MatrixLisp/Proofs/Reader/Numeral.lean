import Mathlib.Tactic
import MatrixLisp.Proofs.Number.Fraction
import MatrixLisp.Proofs.Token.Lexeme
import MatrixLisp.Reader.Literal

/-!
# Numbers read from their texts

The text of a number is an atom that is classified as the same number. For integers and fractions
this follows from the digits; of a float it is assumed that its text consists of digits, a point and
digits after an optional sign, and that this decimal stands for the same float.
-/
namespace MatrixLisp

namespace FloatText

/-- The text of a float is an optional minus sign, digits, a point and digits, and it is read as the
same float. -/
structure ReadsBack (x : Float) : Prop where
  shape : ∃ minus whole part, (minus = [] ∨ minus = ['-']) ∧ Literal.isDigits whole = true ∧
    Literal.isDigits part = true ∧ (literal x).toList = minus ++ whole ++ '.' :: part
  value : Literal.decimalValue? (literal x).toList = some x

end FloatText

namespace Literal

open Token

/-- The characters of number texts. -/
def isNumeral (c : Char) : Bool := c.isDigit || c == '-' || c == '/' || c == '.'

theorem startsAtom_of_isDigit {c : Char} (h : c.isDigit = true) : startsAtom c = true := by
  have hrange : 48 ≤ c.toNat ∧ c.toNat ≤ 57 := Char.isDigit_iff_toNat.mp h
  have hc : c = Nat.digitChar (c.toNat - 48) := by
    apply Char.toNat_inj.mp
    rw [Nat.toNat_digitChar_of_lt_ten (by omega)]
    omega
  generalize hn : c.toNat - 48 = n at hc
  have hlt : n < 10 := by omega
  subst hc
  interval_cases n <;> rfl

theorem startsAtom_of_isNumeral {c : Char} (h : isNumeral c = true) : startsAtom c = true := by
  simp only [isNumeral, Bool.or_eq_true, beq_iff_eq] at h
  obtain ((hdigit | rfl) | rfl) | rfl := h
  · exact startsAtom_of_isDigit hdigit
  · rfl
  · rfl
  · rfl

theorem continuesAtom_of_startsAtom {c : Char} (h : startsAtom c = true) :
    continuesAtom c = true := by
  simp only [startsAtom, Bool.and_eq_true] at h
  exact h.1

/-- A text of such characters is an atom. -/
theorem isLexeme_atom_of_isNumeral {s : String} (hne : s.toList ≠ [])
    (h : ∀ c ∈ s.toList, isNumeral c = true) : IsLexeme (.atom s) := by
  obtain ⟨c, cs, hs⟩ := List.exists_cons_of_ne_nil hne
  rw [hs] at h
  refine ⟨c, cs, hs, startsAtom_of_isNumeral (h c (by simp)), ?_⟩
  intro d hd
  exact continuesAtom_of_startsAtom (startsAtom_of_isNumeral (h d (by simp [hd])))

theorem splitAt?_of_notMem {c : Char} {cs : List Char} (h : c ∉ cs) : splitAt? c cs = none := by
  have hdrop : cs.dropWhile (· != c) = [] := by
    rw [List.dropWhile_eq_nil_iff]
    intro d hd
    have hne : d ≠ c := by
      rintro rfl
      exact h hd
    simpa using hne
  rw [splitAt?, hdrop]

theorem splitAt?_append {c : Char} {front : List Char} (h : c ∉ front) (back : List Char) :
    splitAt? c (front ++ c :: back) = some (front, back) := by
  have hfront : ∀ d ∈ front, (d != c) = true := by
    intro d hd
    have hne : d ≠ c := by
      rintro rfl
      exact h hd
    simpa using hne
  rw [splitAt?, List.dropWhile_append_of_pos hfront, List.takeWhile_append_of_pos hfront]
  simp

theorem isDigits_toDigits (n : ℕ) : isDigits (Nat.toDigits 10 n) = true := by
  simp only [isDigits, Bool.and_eq_true, Bool.not_eq_true', List.isEmpty_eq_false_iff,
    List.all_eq_true]
  exact ⟨Nat.toDigits_ne_nil, fun c hc => Nat.isDigit_of_mem_toDigits (by decide) (by decide) hc⟩

theorem digitsValue_toDigits (n : ℕ) : digitsValue (Nat.toDigits 10 n) = n :=
  Nat.ofDigitChars_toDigits (by decide) (by decide)

theorem isDigit_of_mem {cs : List Char} (h : isDigits cs = true) {c : Char} (hc : c ∈ cs) :
    c.isDigit = true := by
  simp only [isDigits, Bool.and_eq_true, List.all_eq_true] at h
  exact h.2 c hc

theorem splitSign_of_isDigits {cs : List Char} (h : isDigits cs = true) :
    splitSign cs = (false, cs) := by
  have hne : ∀ c, c.isDigit = false → ∀ rest, cs ≠ c :: rest := by
    rintro c hc rest rfl
    rw [isDigit_of_mem h (by simp)] at hc
    cases hc
  unfold splitSign
  split
  · exact absurd rfl (hne '-' rfl _)
  · exact absurd rfl (hne '+' rfl _)
  · rfl

/-- An integer is written as its sign and its digits. -/
theorem toList_toString (n : ℤ) :
    (toString n).toList = (if n < 0 then ['-'] else []) ++ Nat.toDigits 10 n.natAbs := by
  rw [Int.toString_eq_repr, Int.repr_eq_if]
  by_cases h : n < 0
  · have habs : (-n).toNat = n.natAbs := by omega
    rw [if_neg (by omega), if_pos h, habs, String.toList_append, Nat.toList_repr]
    rfl
  · have habs : n.toNat = n.natAbs := by omega
    rw [if_pos (by omega), if_neg h, habs, Nat.toList_repr]
    rfl

theorem splitSign_toString (n : ℤ) :
    splitSign (toString n).toList = (decide (n < 0), Nat.toDigits 10 n.natAbs) := by
  rw [toList_toString]
  by_cases h : n < 0
  · simp [h, splitSign]
  · simp [h, splitSign_of_isDigits (isDigits_toDigits _)]

theorem isInteger_toString (n : ℤ) : isInteger (toString n).toList = true := by
  rw [isInteger, splitSign_toString]
  exact isDigits_toDigits _

theorem integerValue_toString (n : ℤ) : integerValue (toString n).toList = n := by
  rw [integerValue, splitSign_toString]
  simp only [digitsValue_toDigits, decide_eq_true_eq]
  split_ifs <;> omega

theorem isDigit_or_eq_minus_of_mem {n : ℤ} {c : Char} (h : c ∈ (toString n).toList) :
    c.isDigit = true ∨ c = '-' := by
  rw [toList_toString] at h
  rcases List.mem_append.mp h with h | h
  · split_ifs at h
    · exact Or.inr (List.mem_singleton.mp h)
    · simp at h
  · exact Or.inl (isDigit_of_mem (isDigits_toDigits _) h)

theorem notMem_toString {n : ℤ} {c : Char} (hdigit : c.isDigit = false) (hminus : c ≠ '-') :
    c ∉ (toString n).toList := by
  intro h
  rcases isDigit_or_eq_minus_of_mem h with h | h
  · rw [hdigit] at h
    cases h
  · exact hminus h

theorem toString_ne_nil (n : ℤ) : (toString n).toList ≠ [] := by
  rw [toList_toString]
  simp [Nat.toDigits_ne_nil]

theorem isLexeme_toString (n : ℤ) : IsLexeme (.atom (toString n)) := by
  refine isLexeme_atom_of_isNumeral (toString_ne_nil n) ?_
  intro c hc
  rcases isDigit_or_eq_minus_of_mem hc with h | rfl
  · simp [isNumeral, h]
  · rfl

/-- An integer is read from its text. -/
theorem classify_int (n : Int64) : classify (toString n.toInt) = .ok (.int n) := by
  have hfraction : fraction? (toString n.toInt).toList = none := by
    rw [fraction?, splitAt?_of_notMem (notMem_toString rfl (by decide))]
  have hdecimal : isDecimal (toString n.toInt).toList = false := by
    have hpoint : '.' ∉ Nat.toDigits 10 n.toInt.natAbs := fun h => by
      simpa using isDigit_of_mem (isDigits_toDigits _) h
    rw [isDecimal, splitSign_toString, splitAt?_of_notMem hpoint]
  rw [classify, hfraction]
  simp only [hdecimal, isInteger_toString, integerValue_toString, int64?_toInt, Bool.false_eq_true,
    if_false, if_true]

theorem toList_text (q : Rational) :
    q.text.toList = (toString q.numer.toInt).toList ++ '/' :: (toString q.denom.toInt).toList := by
  have hslash : (toString "/").toList = ['/'] := rfl
  simp [Rational.text, hslash]

theorem isLexeme_text (q : Rational) : IsLexeme (.atom q.text) := by
  refine isLexeme_atom_of_isNumeral ?_ ?_
  · rw [toList_text]
    simp
  · intro c hc
    rw [toList_text] at hc
    have hpart : ∀ n : ℤ, c ∈ (toString n).toList → isNumeral c = true := by
      intro n hn
      rcases isDigit_or_eq_minus_of_mem hn with h | rfl
      · simp [isNumeral, h]
      · rfl
    rcases List.mem_append.mp hc with hc | hc
    · exact hpart _ hc
    · rcases List.mem_cons.mp hc with rfl | hc
      · rfl
      · exact hpart _ hc

/-- A fraction in lowest terms is read from its text. -/
theorem classify_rational {q : Rational} (h : q.WellFormed) :
    classify q.text = .ok (.number (.rational q)) := by
  have hdenom : isDigits (toString q.denom.toInt).toList = true := by
    rw [toList_toString, if_neg h.denom_pos.not_gt]
    exact isDigits_toDigits _
  have hfraction : fraction? q.text.toList =
      some ((toString q.numer.toInt).toList, (toString q.denom.toInt).toList) := by
    rw [toList_text, fraction?, splitAt?_append (notMem_toString rfl (by decide))]
    simp only [isInteger_toString, hdenom, Bool.and_self, if_true]
  rw [classify, hfraction]
  simp only [integerValue_toString, int64?_toInt, h.ofFraction_self]
  rfl

theorem notMem_of_isDigits {cs : List Char} (h : isDigits cs = true) {c : Char}
    (hc : c.isDigit = false) : c ∉ cs := by
  intro hmem
  rw [isDigit_of_mem h hmem] at hc
  cases hc

theorem splitSign_minus_append {minus cs : List Char} (hminus : minus = [] ∨ minus = ['-'])
    (h : isDigits cs = true) (rest : List Char) : (splitSign (minus ++ cs ++ rest)).2 = cs ++ rest := by
  rcases hminus with rfl | rfl
  · cases cs with
    | nil => cases h
    | cons c cs =>
      have hc := isDigit_of_mem h (List.mem_cons_self ..)
      show (splitSign (c :: (cs ++ rest))).2 = _
      unfold splitSign
      split
      · rename_i heq
        cases heq
        cases hc
      · rename_i heq
        cases heq
        cases hc
      · rfl
  · rfl

/-- An optional minus sign, digits, a point and digits. -/
def IsPlainDecimal (cs : List Char) : Prop :=
  ∃ minus whole part, (minus = [] ∨ minus = ['-']) ∧ isDigits whole = true ∧
    isDigits part = true ∧ cs = minus ++ whole ++ '.' :: part

namespace IsPlainDecimal

variable {cs : List Char}

theorem isDigit_or_of_mem (h : IsPlainDecimal cs) {c : Char} (hc : c ∈ cs) :
    c.isDigit = true ∨ c = '-' ∨ c = '.' := by
  obtain ⟨minus, whole, part, hminus, hwhole, hpart, rfl⟩ := h
  rw [List.mem_append, List.mem_append, List.mem_cons] at hc
  obtain (hc | hc) | rfl | hc := hc
  · rcases hminus with rfl | rfl
    · simp at hc
    · exact Or.inr (Or.inl (List.mem_singleton.mp hc))
  · exact Or.inl (isDigit_of_mem hwhole hc)
  · exact Or.inr (Or.inr rfl)
  · exact Or.inl (isDigit_of_mem hpart hc)

theorem fraction?_eq_none (h : IsPlainDecimal cs) : fraction? cs = none := by
  have hslash : '/' ∉ cs := by
    intro hc
    rcases h.isDigit_or_of_mem hc with h | h | h <;> cases h
  rw [fraction?, splitAt?_of_notMem hslash]

theorem isDecimal_eq_true (h : IsPlainDecimal cs) : isDecimal cs = true := by
  obtain ⟨minus, whole, part, hminus, hwhole, hpart, rfl⟩ := h
  rw [isDecimal, splitSign_minus_append hminus hwhole,
    splitAt?_append (notMem_of_isDigits hwhole rfl)]
  simp only [hwhole, hpart, Bool.or_true, Bool.true_and, Bool.true_or]

theorem isLexeme_atom {s : String} (h : IsPlainDecimal s.toList) : IsLexeme (.atom s) := by
  refine isLexeme_atom_of_isNumeral ?_ ?_
  · obtain ⟨minus, whole, part, -, -, -, hs⟩ := h
    simp [hs]
  · intro c hc
    rcases h.isDigit_or_of_mem hc with hdigit | rfl | rfl
    · simp [isNumeral, hdigit]
    · rfl
    · rfl

/-- Whatever such a text is read as is a float. -/
theorem exists_float {s : String} (h : IsPlainDecimal s.toList) {v : Value}
    (hv : classify s = .ok v) : ∃ x : Float, v = .float x := by
  rw [classify, h.fraction?_eq_none] at hv
  simp only [h.isDecimal_eq_true, if_true] at hv
  split at hv
  · split_ifs at hv
    cases hv
    exact ⟨_, rfl⟩
  · cases hv

end IsPlainDecimal

/-- A float whose text reads back is read from its text. -/
theorem classify_float {x : Float} (h : FloatText.ReadsBack x) (hx : x.isFinite = true) :
    classify (FloatText.literal x) = .ok (.float x) ∧ IsLexeme (.atom (FloatText.literal x)) := by
  have hshape : IsPlainDecimal (FloatText.literal x).toList := h.shape
  refine ⟨?_, hshape.isLexeme_atom⟩
  rw [classify, hshape.fraction?_eq_none]
  simp only [hshape.isDecimal_eq_true, h.value, hx, if_true]

/-- What an atom can be read as. -/
theorem classify_cases {s : String} {v : Value} (h : classify s = .ok v) :
    (∃ q : Rational, v = .number (.rational q) ∧ q.WellFormed) ∨
    (∃ x : Float, v = .float x ∧ x.isFinite = true) ∨ (∃ n, v = .int n) ∨ v = .symbol s := by
  unfold classify at h
  dsimp only at h
  split at h
  · split at h
    · rename_i n d _ _
      cases hq : Rational.ofFraction n.toInt d.toInt with
      | error f =>
        rw [hq] at h
        cases h
      | ok q =>
        rw [hq] at h
        cases h
        exact Or.inl ⟨q, rfl, Rational.wellFormed_of_ofFraction hq⟩
    · cases h
  · split_ifs at h with hdecimal hinteger
    · split at h
      · split_ifs at h with hfinite
        cases h
        exact Or.inr (Or.inl ⟨_, rfl, hfinite⟩)
      · cases h
    · split at h
      · cases h
        exact Or.inr (Or.inr (Or.inl ⟨_, rfl⟩))
      · cases h
    · cases h
      exact Or.inr (Or.inr (Or.inr rfl))

end Literal

end MatrixLisp
