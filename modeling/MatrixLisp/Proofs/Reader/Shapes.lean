import Mathlib
import MatrixLisp.Proofs.Reader.Numeral
import MatrixLisp.Proofs.Token.MaximalMunch

/-!
# Atoms by their shapes

The three shapes of numbers are languages over characters, and digits are valued by their places. The
tests of an atom accept these languages, for every text, and an atom stands for the number that its
digits denote as long as this fits. A text of no shape is a symbol.
-/
namespace MatrixLisp.Literal

open Token
open scoped Computability

/-- The texts of one ASCII digit. -/
def digit : Language Char := oneOf fun c => '0' ≤ c ∧ c ≤ '9'

/-- One digit or more. -/
def digits : Language Char := digit * digit∗

/-- A plus, a minus or neither. -/
def sign : Language Char := 1 + {['+']} + {['-']}

/-- The shape `[+-]?d+/d+`. -/
def fractionShape : Language Char := sign * digits * {['/']} * digits

/-- The shape `[+-]?(d+.d*|.d+)`. -/
def decimalShape : Language Char := sign * (digits * {['.']} * digit∗ + {['.']} * digits)

/-- The shape `[+-]?d+`. -/
def integerShape : Language Char := sign * digits

/-- The number that digits stand for in decimal notation, the last one in the place of the units. -/
def placeValue (cs : List Char) : ℕ :=
  Nat.ofDigits 10 (cs.reverse.map fun c => c.toNat - '0'.toNat)

/-- A number behind a sign. -/
def signed (s : List Char) (n : ℤ) : ℤ := if s = ['-'] then -n else n

/-- The float nearest to digits behind a sign and before and behind a point. -/
def decimalFloat (s whole part : List Char) : Float :=
  let x := Float.ofScientific (placeValue (whole ++ part)) true part.length
  if s = ['-'] then -x else x

/-! ## The parts of a shape -/

theorem isDigit_iff (c : Char) : c.isDigit = true ↔ '0' ≤ c ∧ c ≤ '9' := by
  simp [Char.isDigit, Char.le_def]

theorem mem_kstar_digit {cs : List Char} : cs ∈ digit∗ ↔ ∀ c ∈ cs, c.isDigit = true := by
  simp only [digit, mem_kstar_oneOf, isDigit_iff]

theorem isDigits_iff {cs : List Char} :
    isDigits cs = true ↔ cs ≠ [] ∧ ∀ c ∈ cs, c.isDigit = true := by
  simp [isDigits]

theorem mem_digits_iff {cs : List Char} : cs ∈ digits ↔ isDigits cs = true := by
  rw [isDigits_iff]
  constructor
  · intro h
    obtain ⟨_, ⟨c, hc, rfl⟩, rest, hrest, rfl⟩ := Language.mem_mul.mp h
    refine ⟨List.cons_ne_nil c rest, List.forall_mem_cons.mpr ⟨(isDigit_iff c).mpr hc, ?_⟩⟩
    exact mem_kstar_digit.mp hrest
  · rintro ⟨hne, h⟩
    obtain ⟨c, rest, rfl⟩ := List.exists_cons_of_ne_nil hne
    obtain ⟨hc, hrest⟩ := List.forall_mem_cons.mp h
    exact Language.mem_mul.mpr
      ⟨[c], ⟨c, (isDigit_iff c).mp hc, rfl⟩, rest, mem_kstar_digit.mpr hrest, rfl⟩

theorem mem_sign_iff {s : List Char} : s ∈ sign ↔ s = [] ∨ s = ['+'] ∨ s = ['-'] := by
  rw [← or_assoc]
  exact Iff.rfl

/-- A sign is split off in front of a text that does not start with another one. -/
theorem splitSign_append {s rest : List Char} (hs : s ∈ sign)
    (hrest : ∀ c ∈ rest.head?, c ≠ '+' ∧ c ≠ '-') :
    splitSign (s ++ rest) = (decide (s = ['-']), rest) := by
  obtain rfl | rfl | rfl := mem_sign_iff.mp hs
  · rw [List.nil_append]
    unfold splitSign
    split
    · exact absurd rfl (hrest '-' rfl).2
    · exact absurd rfl (hrest '+' rfl).1
    · rfl
  · rfl
  · rfl

theorem exists_sign (cs : List Char) : ∃ s ∈ sign, cs = s ++ (splitSign cs).2 := by
  unfold splitSign
  split
  · exact ⟨['-'], mem_sign_iff.mpr (Or.inr (Or.inr rfl)), rfl⟩
  · exact ⟨['+'], mem_sign_iff.mpr (Or.inr (Or.inl rfl)), rfl⟩
  · exact ⟨[], mem_sign_iff.mpr (Or.inl rfl), rfl⟩

/-- A text is split where the character first stands. -/
theorem splitAt?_eq_some_iff {c : Char} {cs front back : List Char} :
    splitAt? c cs = some (front, back) ↔ cs = front ++ c :: back ∧ c ∉ front := by
  constructor
  · intro h
    by_cases hc : c ∈ cs
    · obtain ⟨front', back', rfl, hfront⟩ := List.eq_append_cons_of_mem hc
      rw [splitAt?_append hfront] at h
      cases h
      exact ⟨rfl, hfront⟩
    · rw [splitAt?_of_notMem hc] at h
      cases h
  · rintro ⟨rfl, hc⟩
    exact splitAt?_append hc back

/-- No digit is a sign. -/
theorem not_sign_of_head {cs : List Char} (h : cs ∈ digits) (rest : List Char) :
    ∀ c ∈ (cs ++ rest).head?, c ≠ '+' ∧ c ≠ '-' := by
  obtain ⟨_, ⟨c, hc, rfl⟩, more, -, rfl⟩ := Language.mem_mul.mp h
  rintro _ ⟨⟩
  constructor
  · rintro rfl
    exact absurd hc.1 (by decide)
  · rintro rfl
    exact absurd hc.1 (by decide)

theorem splitSign_digits {s n : List Char} (hs : s ∈ sign) (hn : n ∈ digits) (rest : List Char) :
    splitSign (s ++ (n ++ rest)) = (decide (s = ['-']), n ++ rest) :=
  splitSign_append hs (not_sign_of_head hn rest)

theorem splitSign_integer {s n : List Char} (hs : s ∈ sign) (hn : n ∈ digits) :
    splitSign (s ++ n) = (decide (s = ['-']), n) := by
  have hsplit := splitSign_digits hs hn []
  rwa [List.append_nil] at hsplit

/-! ## The shapes -/

theorem isInteger_iff {cs : List Char} : isInteger cs = true ↔ cs ∈ integerShape := by
  constructor
  · intro h
    obtain ⟨s, hs, hcs⟩ := exists_sign cs
    exact Language.mem_mul.mpr ⟨s, hs, _, mem_digits_iff.mpr h, hcs.symm⟩
  · intro h
    obtain ⟨s, hs, n, hn, rfl⟩ := Language.mem_mul.mp h
    rw [isInteger, splitSign_integer hs hn]
    exact mem_digits_iff.mp hn

theorem mem_fractionShape_iff {cs : List Char} :
    cs ∈ fractionShape ↔ ∃ numer ∈ integerShape, ∃ denom ∈ digits, cs = numer ++ '/' :: denom := by
  constructor
  · intro h
    obtain ⟨_, hfront, denom, hdenom, rfl⟩ := Language.mem_mul.mp h
    obtain ⟨numer, hnumer, _, rfl, rfl⟩ := Language.mem_mul.mp hfront
    exact ⟨numer, hnumer, denom, hdenom, by simp⟩
  · rintro ⟨numer, hnumer, denom, hdenom, rfl⟩
    refine Language.mem_mul.mpr ⟨numer ++ ['/'], ?_, denom, hdenom, by simp⟩
    exact Language.mem_mul.mpr ⟨numer, hnumer, ['/'], rfl, rfl⟩

theorem slash_notMem_sign {s : List Char} (hs : s ∈ sign) : '/' ∉ s := by
  obtain rfl | rfl | rfl := mem_sign_iff.mp hs <;> decide

theorem slash_notMem_of_integerShape {cs : List Char} (h : cs ∈ integerShape) : '/' ∉ cs := by
  obtain ⟨s, hs, n, hn, rfl⟩ := Language.mem_mul.mp h
  rw [List.mem_append, not_or]
  exact ⟨slash_notMem_sign hs, notMem_of_isDigits (mem_digits_iff.mp hn) rfl⟩

theorem fraction?_eq_some_iff {cs numer denom : List Char} :
    fraction? cs = some (numer, denom) ↔
      numer ∈ integerShape ∧ denom ∈ digits ∧ cs = numer ++ '/' :: denom := by
  constructor
  · intro h
    unfold fraction? at h
    split at h
    · rename_i hsplit
      split_ifs at h with hparts
      cases h
      rw [Bool.and_eq_true, isInteger_iff, ← mem_digits_iff] at hparts
      exact ⟨hparts.1, hparts.2, (splitAt?_eq_some_iff.mp hsplit).1⟩
    · cases h
  · rintro ⟨hnumer, hdenom, rfl⟩
    rw [fraction?, splitAt?_append (slash_notMem_of_integerShape hnumer)]
    dsimp only
    rw [isInteger_iff.mpr hnumer, mem_digits_iff.mp hdenom]
    rfl

theorem fraction?_of_slash_notMem {cs : List Char} (h : '/' ∉ cs) : fraction? cs = none := by
  rw [fraction?, splitAt?_of_notMem h]

theorem fraction?_eq_none_iff {cs : List Char} : fraction? cs = none ↔ cs ∉ fractionShape := by
  rw [mem_fractionShape_iff, Option.eq_none_iff_forall_ne_some]
  constructor
  · rintro h ⟨numer, hnumer, denom, hdenom, hcs⟩
    exact h (numer, denom) (fraction?_eq_some_iff.mpr ⟨hnumer, hdenom, hcs⟩)
  · rintro h ⟨numer, denom⟩ hparts
    obtain ⟨hnumer, hdenom, hcs⟩ := fraction?_eq_some_iff.mp hparts
    exact h ⟨numer, hnumer, denom, hdenom, hcs⟩

/-- What stands before and behind the point of a decimal. -/
def AroundPoint (whole part : List Char) : Prop :=
  (whole ∈ digits ∧ part ∈ digit∗) ∨ (whole = [] ∧ part ∈ digits)

theorem mem_decimalShape_iff {cs : List Char} :
    cs ∈ decimalShape ↔
      ∃ s ∈ sign, ∃ whole part, AroundPoint whole part ∧ cs = s ++ (whole ++ '.' :: part) := by
  constructor
  · intro h
    obtain ⟨s, hs, _, hrest | hrest, rfl⟩ := Language.mem_mul.mp h
    · obtain ⟨_, hfront, part, hpart, rfl⟩ := Language.mem_mul.mp hrest
      obtain ⟨whole, hwhole, _, rfl, rfl⟩ := Language.mem_mul.mp hfront
      exact ⟨s, hs, whole, part, Or.inl ⟨hwhole, hpart⟩, by simp⟩
    · obtain ⟨_, rfl, part, hpart, rfl⟩ := Language.mem_mul.mp hrest
      exact ⟨s, hs, [], part, Or.inr ⟨rfl, hpart⟩, rfl⟩
  · rintro ⟨s, hs, whole, part, h | ⟨rfl, hpart⟩, rfl⟩
    · refine Language.mem_mul.mpr ⟨s, hs, _, Or.inl ?_, rfl⟩
      refine Language.mem_mul.mpr ⟨whole ++ ['.'], ?_, part, h.2, by simp⟩
      exact Language.mem_mul.mpr ⟨whole, h.1, ['.'], rfl, rfl⟩
    · refine Language.mem_mul.mpr ⟨s, hs, _, Or.inr ?_, rfl⟩
      exact Language.mem_mul.mpr ⟨['.'], rfl, part, hpart, rfl⟩

namespace AroundPoint

variable {s whole part : List Char}

theorem point_notMem (h : AroundPoint whole part) : '.' ∉ whole := by
  rcases h with ⟨hwhole, -⟩ | ⟨rfl, -⟩
  · exact notMem_of_isDigits (mem_digits_iff.mp hwhole) rfl
  · exact List.not_mem_nil

theorem splitSign_eq (h : AroundPoint whole part) (hs : s ∈ sign) :
    splitSign (s ++ (whole ++ '.' :: part)) = (decide (s = ['-']), whole ++ '.' :: part) := by
  rcases h with ⟨hwhole, -⟩ | ⟨rfl, -⟩
  · exact splitSign_digits hs hwhole _
  · refine splitSign_append hs ?_
    rintro _ ⟨⟩
    decide

/-- There is a digit on one side of the point at least, and there are only digits on both. -/
theorem isDigits_append (h : AroundPoint whole part) : isDigits (whole ++ part) = true := by
  rcases h with ⟨hwhole, hpart⟩ | ⟨rfl, hpart⟩
  · rw [mem_digits_iff, isDigits_iff] at hwhole
    rw [mem_kstar_digit] at hpart
    rw [isDigits_iff, List.forall_mem_append]
    exact ⟨List.append_ne_nil_of_left_ne_nil hwhole.1 part, hwhole.2, hpart⟩
  · exact mem_digits_iff.mp hpart

end AroundPoint

/-- The test of a side of the point accepts what is empty or digits. -/
theorem isEmpty_or_isDigits_iff {cs : List Char} :
    (cs.isEmpty || isDigits cs) = true ↔ cs ∈ digit∗ := by
  rw [mem_kstar_digit]
  cases cs <;> simp [isDigits]

theorem isDecimal_iff {cs : List Char} : isDecimal cs = true ↔ cs ∈ decimalShape := by
  rw [mem_decimalShape_iff]
  constructor
  · intro h
    obtain ⟨s, hs, hcs⟩ := exists_sign cs
    unfold isDecimal at h
    split at h
    · rename_i whole part hsplit
      rw [(splitAt?_eq_some_iff.mp hsplit).1] at hcs
      refine ⟨s, hs, whole, part, ?_, hcs⟩
      rw [Bool.or_eq_true, Bool.and_eq_true, Bool.and_eq_true, isEmpty_or_isDigits_iff,
        ← mem_digits_iff, ← mem_digits_iff, List.isEmpty_iff] at h
      exact h
    · cases h
  · rintro ⟨s, hs, whole, part, h, rfl⟩
    rw [isDecimal, h.splitSign_eq hs]
    dsimp only
    rw [splitAt?_append h.point_notMem]
    dsimp only
    rw [Bool.or_eq_true, Bool.and_eq_true, Bool.and_eq_true, isEmpty_or_isDigits_iff,
      ← mem_digits_iff, ← mem_digits_iff, List.isEmpty_iff]
    exact h

/-! ## The values -/

theorem digitsValue_eq (cs : List Char) : digitsValue cs = placeValue cs := by
  induction cs using List.reverseRecOn with
  | nil => rfl
  | append_singleton cs c ih =>
    rw [digitsValue, List.foldl_append, ← digitsValue, ih]
    simp [placeValue, Nat.ofDigits_cons, Nat.add_comm]

theorem integerValue_digits {s n : List Char} (hs : s ∈ sign) (hn : n ∈ digits) :
    integerValue (s ++ n) = signed s (placeValue n) := by
  rw [integerValue, splitSign_integer hs hn, ← digitsValue_eq, signed]
  simp

theorem decimalValue?_eq {s whole part : List Char} (hs : s ∈ sign) (h : AroundPoint whole part) :
    decimalValue? (s ++ (whole ++ '.' :: part)) = some (decimalFloat s whole part) := by
  rw [decimalValue?, h.splitSign_eq hs]
  dsimp only
  rw [splitAt?_append h.point_notMem]
  dsimp only
  rw [if_pos h.isDigits_append, digitsValue_eq, decimalFloat]
  simp

/-! ## Classification -/

variable {t : String}

/-- A fraction literal: first its parts must fit, then its denominator must not be zero, and then
there is nothing left that could go wrong. -/
theorem classify_of_fraction {s n d : List Char} (hs : s ∈ sign) (hn : n ∈ digits) (hd : d ∈ digits)
    (ht : t.toList = s ++ n ++ '/' :: d) :
    Settled (classify t)
      ((FitsInt64 (signed s (placeValue n)) ∧ FitsInt64 (placeValue d)) ∧ placeValue d = 0)
      (FitsInt64 (signed s (placeValue n)) ∧ FitsInt64 (placeValue d))
      fun v => ∃ q : Rational, v = .number (.rational q) ∧ q.WellFormed ∧
        q.value = (signed s (placeValue n) : ℚ) / placeValue d := by
  have hinteger : s ++ n ∈ integerShape := Language.mem_mul.mpr ⟨s, hs, n, hn, rfl⟩
  have hdenom : integerValue d = placeValue d := by
    have hsign : [] ∈ sign := mem_sign_iff.mpr (Or.inl rfl)
    simpa [signed] using integerValue_digits hsign hd
  rw [classify, fraction?_eq_some_iff.mpr ⟨hinteger, hd, ht⟩]
  dsimp only
  rw [integerValue_digits hs hn, hdenom]
  cases hnumer : int64? (signed s (placeValue n)) with
  | none =>
    have hnot := int64?_eq_none_iff_not_fits.mp hnumer
    exact Or.inr ⟨fun h => hnot h.1.1, fun h => hnot h.1, rfl⟩
  | some a =>
    cases hdenom : int64? (placeValue d : ℤ) with
    | none =>
      have hnot := int64?_eq_none_iff_not_fits.mp hdenom
      exact Or.inr ⟨fun h => hnot h.1.2, fun h => hnot h.2, rfl⟩
    | some b =>
      rw [int64?_eq_some_iff] at hnumer hdenom
      have hfits : FitsInt64 (signed s (placeValue n)) ∧ FitsInt64 (placeValue d) :=
        ⟨hnumer ▸ fitsInt64_toInt a, hdenom ▸ fitsInt64_toInt b⟩
      have hsettled := Rational.ofFraction_settled a.toInt b.toInt
      have hrepresentable := Rational.representable_of_nonneg a (d := b) (by omega)
      rw [hnumer, hdenom] at hsettled hrepresentable
      have hzero : (placeValue d : ℤ) = 0 ↔
          (FitsInt64 (signed s (placeValue n)) ∧ FitsInt64 (placeValue d)) ∧ placeValue d = 0 := by
        rw [Int.natCast_eq_zero]
        exact ⟨fun h => ⟨hfits, h⟩, fun h => h.2⟩
      dsimp only
      rw [hnumer, hdenom]
      refine (hsettled.congr hzero fun _ => iff_of_true hrepresentable hfits).map ?_
      rintro q ⟨hq, hvalue⟩
      exact ⟨q, rfl, hq, by simpa using hvalue⟩

/-- A decimal literal is a finite float, or it is too great for one. -/
theorem classify_of_decimal {s whole part : List Char} (hs : s ∈ sign)
    (h : AroundPoint whole part) (ht : t.toList = s ++ (whole ++ '.' :: part)) :
    Settled (classify t) False ((decimalFloat s whole part).isFinite = true)
      (· = .float (decimalFloat s whole part)) := by
  have hslash : '/' ∉ t.toList := by
    have hdigits : '/' ∉ whole ++ part := notMem_of_isDigits h.isDigits_append rfl
    rw [List.mem_append, not_or] at hdigits
    rw [ht, List.mem_append, List.mem_append, List.mem_cons, not_or, not_or, not_or]
    exact ⟨slash_notMem_sign hs, hdigits.1, by decide, hdigits.2⟩
  rw [classify, fraction?_of_slash_notMem hslash]
  dsimp only
  rw [ht, if_pos (isDecimal_iff.mpr (mem_decimalShape_iff.mpr ⟨s, hs, whole, part, h, rfl⟩)),
    decimalValue?_eq hs h]
  dsimp only
  split_ifs with hfinite
  · exact ⟨not_false, hfinite, rfl⟩
  · exact Or.inr ⟨not_false, hfinite, rfl⟩

/-- An integer literal is the integer that is written, or it is out of range. -/
theorem classify_of_integer {s n : List Char} (hs : s ∈ sign) (hn : n ∈ digits)
    (ht : t.toList = s ++ n) :
    Settled (classify t) False (FitsInt64 (signed s (placeValue n)))
      fun v => ∃ w, v = .int w ∧ w.toInt = signed s (placeValue n) := by
  have hinteger : s ++ n ∈ integerShape := Language.mem_mul.mpr ⟨s, hs, n, hn, rfl⟩
  have hfraction : fraction? t.toList = none :=
    fraction?_of_slash_notMem (ht ▸ slash_notMem_of_integerShape hinteger)
  have hdecimal : isDecimal t.toList = false := by
    have hpoint : '.' ∉ n := notMem_of_isDigits (mem_digits_iff.mp hn) rfl
    rw [ht, isDecimal, splitSign_integer hs hn, splitAt?_of_notMem hpoint]
  rw [classify, hfraction]
  dsimp only
  rw [hdecimal, ht, if_neg Bool.false_ne_true, if_pos (isInteger_iff.mpr hinteger),
    integerValue_digits hs hn]
  cases hw : int64? (signed s (placeValue n)) with
  | none => exact Or.inr ⟨not_false, int64?_eq_none_iff_not_fits.mp hw, rfl⟩
  | some w =>
    rw [int64?_eq_some_iff] at hw
    exact ⟨not_false, hw ▸ fitsInt64_toInt w, w, rfl, hw⟩

theorem classify_of_no_shape (hfraction : t.toList ∉ fractionShape)
    (hdecimal : t.toList ∉ decimalShape) (hinteger : t.toList ∉ integerShape) :
    classify t = .ok (.symbol t) := by
  rw [← isDecimal_iff] at hdecimal
  rw [← isInteger_iff] at hinteger
  rw [classify, fraction?_eq_none_iff.mpr hfraction]
  dsimp only
  rw [if_neg hdecimal, if_neg hinteger]

/-- An atom that is refused is out of range or divides by zero; no decimal is refused as none. -/
theorem kind_of_classify {f : Fault} (h : classify t = .error f) :
    f.kind = .outOfRange ∨ f.kind = .divisionByZero := by
  by_cases hfraction : t.toList ∈ fractionShape
  · obtain ⟨numer, hnumer, d, hd, ht⟩ := mem_fractionShape_iff.mp hfraction
    obtain ⟨s, hs, n, hn, rfl⟩ := Language.mem_mul.mp hnumer
    exact (classify_of_fraction hs hn hd ht).kind_of_error h
  · by_cases hdecimal : t.toList ∈ decimalShape
    · obtain ⟨s, hs, whole, part, hparts, ht⟩ := mem_decimalShape_iff.mp hdecimal
      exact (classify_of_decimal hs hparts ht).kind_of_error h
    · by_cases hinteger : t.toList ∈ integerShape
      · obtain ⟨s, hs, n, hn, ht⟩ := Language.mem_mul.mp hinteger
        exact (classify_of_integer hs hn ht.symm).kind_of_error h
      · rw [classify_of_no_shape hfraction hdecimal hinteger] at h
        cases h

/-- An atom is classified by its shape, whatever text it is, and by the exact value of its digits. Of
the shapes of numbers a fraction is refused if a part does not fit in 64 bits, or else if it divides by
zero; a decimal is refused only if its float is infinite, and an integer only if it does not fit. A
text of no shape is a symbol. -/
theorem classify_by_shape (t : String) :
    (∀ s ∈ sign, ∀ n ∈ digits, ∀ d ∈ digits, t.toList = s ++ n ++ '/' :: d →
      Settled (classify t)
        ((FitsInt64 (signed s (placeValue n)) ∧ FitsInt64 (placeValue d)) ∧ placeValue d = 0)
        (FitsInt64 (signed s (placeValue n)) ∧ FitsInt64 (placeValue d))
        fun v => ∃ q : Rational, v = .number (.rational q) ∧ q.WellFormed ∧
          q.value = (signed s (placeValue n) : ℚ) / placeValue d) ∧
    (∀ s ∈ sign, ∀ whole part, AroundPoint whole part → t.toList = s ++ (whole ++ '.' :: part) →
      Settled (classify t) False ((decimalFloat s whole part).isFinite = true)
        (· = .float (decimalFloat s whole part))) ∧
    (∀ s ∈ sign, ∀ n ∈ digits, t.toList = s ++ n →
      Settled (classify t) False (FitsInt64 (signed s (placeValue n)))
        fun v => ∃ w, v = .int w ∧ w.toInt = signed s (placeValue n)) ∧
    (t.toList ∉ fractionShape → t.toList ∉ decimalShape → t.toList ∉ integerShape →
      classify t = .ok (.symbol t)) :=
  ⟨fun _ hs _ hn _ hd ht => classify_of_fraction hs hn hd ht,
    fun _ hs _ _ h ht => classify_of_decimal hs h ht,
    fun _ hs _ hn ht => classify_of_integer hs hn ht, classify_of_no_shape⟩

/-- The least numerator over a denominator with a leading zero, one more than the greatest integer, a
point with nothing behind it, and a text with one slash too many. -/
theorem classify_by_shape_extremes :
    (∃ q : Rational, classify "-9223372036854775808/06" = .ok (.number (.rational q)) ∧
      q.WellFormed ∧ q.value = -9223372036854775808 / 6) ∧
    (∃ f, classify "+09223372036854775808" = .error f ∧ f.kind = .outOfRange) ∧
    (∃ x : Float, classify "1." = .ok (.float x) ∧ x.isFinite = true) ∧
    classify "1/2/3" = .ok (.symbol "1/2/3") := by
  have hminus : ['-'] ∈ sign := mem_sign_iff.mpr (by decide)
  have hplus : ['+'] ∈ sign := mem_sign_iff.mpr (by decide)
  have hnone : [] ∈ sign := mem_sign_iff.mpr (by decide)
  refine ⟨?_, ?_, ?_, ?_⟩
  · have hn : "9223372036854775808".toList ∈ digits := mem_digits_iff.mpr rfl
    have hd : "06".toList ∈ digits := mem_digits_iff.mpr rfl
    have hnumer : signed ['-'] (placeValue "9223372036854775808".toList) = -9223372036854775808 := rfl
    have hdenom : placeValue "06".toList = 6 := rfl
    have hsettled := (classify_by_shape "-9223372036854775808/06").1 _ hminus _ hn _ hd rfl
    rw [hnumer, hdenom] at hsettled
    obtain ⟨-, -, hok, hresult⟩ := hsettled.outcomes
    obtain ⟨v, hv⟩ := hok.mpr (by decide)
    obtain ⟨q, rfl, hq, hvalue⟩ := hresult v hv
    exact ⟨q, hv, hq, by simpa using hvalue⟩
  · have hn : "09223372036854775808".toList ∈ digits := mem_digits_iff.mpr rfl
    have hvalue : signed ['+'] (placeValue "09223372036854775808".toList) = 9223372036854775808 := rfl
    have hsettled := (classify_by_shape "+09223372036854775808").2.2.1 _ hplus _ hn rfl
    rw [hvalue] at hsettled
    exact hsettled.outcomes.2.1.mpr (by decide)
  · have hpoint : AroundPoint ['1'] [] := Or.inl ⟨mem_digits_iff.mpr rfl, mem_kstar_digit.mpr nofun⟩
    have hfinite : (decimalFloat [] ['1'] []).isFinite = true := by decide +kernel
    have hsettled := (classify_by_shape "1.").2.1 _ hnone _ _ hpoint rfl
    obtain ⟨-, -, hok, hresult⟩ := hsettled.outcomes
    obtain ⟨v, hv⟩ := hok.mpr ⟨not_false, hfinite⟩
    exact ⟨_, hresult v hv ▸ hv, hfinite⟩
  · have hfraction : "1/2/3".toList ∉ fractionShape := fraction?_eq_none_iff.mp rfl
    have hdecimal : "1/2/3".toList ∉ decimalShape := mt isDecimal_iff.mpr (by decide)
    have hinteger : "1/2/3".toList ∉ integerShape := mt isInteger_iff.mpr (by decide)
    exact (classify_by_shape "1/2/3").2.2.2 hfraction hdecimal hinteger

end MatrixLisp.Literal
