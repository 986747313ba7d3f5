import Mathlib.Tactic
import MatrixLisp.Decimal.FloatText
import MatrixLisp.Proofs.Decimal.Shortest
import MatrixLisp.Proofs.Reader.Numeral

/-!
# Floats and their texts

The text of a finite float is its sign, digits, a point and digits again, and this decimal rounds to
the magnitude of the float. Since no decimal rounds to two magnitudes, different floats have
different texts.
-/
namespace MatrixLisp

namespace Literal

theorem digitsValue_zeros_append (n : ℕ) (ds : List Char) :
    digitsValue (List.replicate n '0' ++ ds) = digitsValue ds := by
  induction n with
  | zero => rfl
  | succ n ih => exact ih

theorem digitsValue_append_zero (ds : List Char) : digitsValue (ds ++ ['0']) = 10 * digitsValue ds := by
  rw [digitsValue, List.foldl_append]
  rfl

theorem isDigits_of_forall {cs : List Char} (hne : cs ≠ []) (h : ∀ c ∈ cs, c.isDigit = true) :
    isDigits cs = true := by
  rw [isDigits, Bool.and_eq_true, List.all_eq_true]
  exact ⟨by simpa using hne, h⟩

end Literal

namespace FloatText

open Literal

/-- Digits around a point that round to a magnitude. -/
structure IsDecimal (m : Magnitude) (whole part : List Char) : Prop where
  isDigits_whole : isDigits whole = true
  isDigits_part : isDigits part = true
  rounds : m.Rounds (digitsValue (whole ++ part) / 10 ^ part.length)

/-- With a negative power of ten, the point stands among the digits. -/
theorem exists_positional (digits : ℕ) {power : ℤ} (h : power < 0) :
    ∃ whole part, isDigits whole = true ∧ isDigits part = true ∧
      (positional digits power).toList = whole ++ '.' :: part ∧
      digitsValue (whole ++ part) = digits ∧ part.length = (-power).toNat := by
  have hplaces : 0 < (-power).toNat := by omega
  rw [positional, if_neg (by omega)]
  dsimp only
  generalize (-power).toNat = places at hplaces
  generalize hpadded : List.replicate (places + 1 - (Nat.toDigits 10 digits).length) '0' ++
    Nat.toDigits 10 digits = padded
  have hlength : places < padded.length := by
    rw [← hpadded, List.length_append, List.length_replicate]
    omega
  have hdigit : ∀ c ∈ padded, c.isDigit = true := by
    intro c hc
    rw [← hpadded] at hc
    rcases List.mem_append.mp hc with hc | hc
    · rw [List.eq_of_mem_replicate hc]
      rfl
    · exact isDigit_of_mem (isDigits_toDigits _) hc
  refine ⟨padded.take (padded.length - places), padded.drop (padded.length - places), ?_, ?_,
    String.toList_ofList, ?_, ?_⟩
  · refine isDigits_of_forall (fun hnil => ?_) fun c hc => hdigit c (List.mem_of_mem_take hc)
    have hzero := congrArg List.length hnil
    rw [List.length_take, List.length_nil] at hzero
    omega
  · refine isDigits_of_forall (fun hnil => ?_) fun c hc => hdigit c (List.mem_of_mem_drop hc)
    have hzero := congrArg List.length hnil
    rw [List.length_drop, List.length_nil] at hzero
    omega
  · rw [List.take_append_drop, ← hpadded, digitsValue_zeros_append, digitsValue_toDigits]
  · rw [List.length_drop]
    omega

theorem isNaN_eq_false {x : Float} (hx : x.isFinite = true) : x.isNaN = false := by
  rw [Float.isFinite, Float.Model.isFinite] at hx
  rw [Float.isNaN, Float.Model.isNaN]
  cases hunpacked : x.toModel.unpack with
  | notANumber =>
    rw [hunpacked] at hx
    cases hx
  | _ => rfl

theorem literal_of_isWhole {x : Float} (hx : x.isFinite = true)
    (hwhole : (magnitude x).isWhole = true) :
    literal x = sign x ++ toString (magnitude x).floor ++ ".0" := by
  have hliteral : isWhole x = true := by rw [isWhole, hx, hwhole, Bool.and_true]
  rw [literal, if_pos hliteral]

theorem literal_of_not_isWhole {x : Float} (hx : x.isFinite = true)
    (hwhole : (magnitude x).isWhole = false) :
    literal x = sign x ++ positional (magnitude x).shortest.1 (magnitude x).shortest.2 := by
  have hliteral : isWhole x = false := by rw [isWhole, hx, hwhole, Bool.and_false]
  rw [literal, hliteral, if_neg Bool.false_ne_true, plain, isNaN_eq_false hx,
    if_neg Bool.false_ne_true, if_pos hx]

/-- A finite float is written as a decimal that rounds to its magnitude. -/
theorem exists_literal {x : Float} (hx : x.isFinite = true) :
    ∃ whole part, IsDecimal (magnitude x) whole part ∧
      (literal x).toList = (sign x).toList ++ whole ++ '.' :: part := by
  cases hwhole : (magnitude x).isWhole with
  | true =>
    refine ⟨Nat.toDigits 10 (magnitude x).floor, ['0'], ⟨isDigits_toDigits _, rfl, ?_⟩, ?_⟩
    · rw [digitsValue_append_zero, digitsValue_toDigits, Nat.cast_mul, List.length_singleton, pow_one,
        Nat.cast_ofNat, mul_div_cancel_left₀ _ (by norm_num), Magnitude.floor_eq_value hwhole]
      exact (magnitude x).rounds_value
    · have hfloor : (toString (magnitude x).floor).toList = Nat.toDigits 10 (magnitude x).floor :=
        Nat.toList_repr
      rw [literal_of_isWhole hx hwhole, String.toList_append, String.toList_append, hfloor]
      rfl
  | false =>
    have hread := Magnitude.isReadFrom_shortest hwhole (Magnitude.canonical_ofBits _)
    have hpower := Magnitude.power_neg_of_isReadFrom hwhole hread
    obtain ⟨whole, part, hdigits, hdigits', hlist, hvalue, hlength⟩ :=
      exists_positional (magnitude x).shortest.1 hpower
    refine ⟨whole, part, ⟨hdigits, hdigits', ?_⟩, ?_⟩
    · have hrounds := Magnitude.rounds_of_isReadFrom hread
      have hplaces : (10 : ℚ) ^ (magnitude x).shortest.2 = (10 ^ part.length)⁻¹ := by
        rw [hlength, ← zpow_natCast, ← zpow_neg]
        congr 1
        omega
      rw [hvalue, div_eq_mul_inv, ← hplaces]
      exact hrounds
    · rw [literal_of_not_isWhole hx hwhole, String.toList_append, hlist, List.append_assoc]

theorem sign_eq (x : Float) : (sign x).toList = [] ∨ (sign x).toList = ['-'] := by
  unfold sign
  split_ifs
  · exact Or.inr rfl
  · exact Or.inl rfl

/-- The sign and the magnitude of a float are all of it. -/
theorem eq_of_sign_of_magnitude {x y : Float} (hsign : sign x = sign y)
    (hmagnitude : magnitude x = magnitude y) : x = y := by
  have hiff : 0x8000000000000000 ≤ x.toBits.toNat ↔ 0x8000000000000000 ≤ y.toBits.toNat := by
    unfold sign at hsign
    simp only [UInt64.le_iff_toNat_le] at hsign
    split_ifs at hsign with h h' h'
    · exact iff_of_true h h'
    · exact absurd hsign (by decide)
    · exact absurd hsign (by decide)
    · exact iff_of_false h h'
  have hmod := Magnitude.ofBits_inj hmagnitude
  have hlt := x.toBits.toNat_lt
  have hlt' := y.toBits.toNat_lt
  have hbits : x.toBits.toNat = y.toBits.toNat := by
    unfold Magnitude.hidden at hmod
    omega
  obtain ⟨⟨bits, hvalid⟩⟩ := x
  obtain ⟨⟨bits', hvalid'⟩⟩ := y
  obtain rfl : bits = bits' := UInt64.toNat_inj.mp hbits
  rfl

/-- Different finite floats are written differently. -/
theorem literal_injective {x y : Float} (hx : x.isFinite = true) (hy : y.isFinite = true)
    (h : literal x = literal y) : x = y := by
  obtain ⟨whole, part, hdecimal, htext⟩ := exists_literal hx
  obtain ⟨whole', part', hdecimal', htext'⟩ := exists_literal hy
  rw [h, htext'] at htext
  have hunsigned : whole' ++ '.' :: part' = whole ++ '.' :: part := by
    rw [← splitSign_minus_append (sign_eq y) hdecimal'.isDigits_whole, htext,
      splitSign_minus_append (sign_eq x) hdecimal.isDigits_whole]
  have hsplit := congrArg (splitAt? '.') hunsigned
  rw [splitAt?_append (notMem_of_isDigits hdecimal'.isDigits_whole rfl),
    splitAt?_append (notMem_of_isDigits hdecimal.isDigits_whole rfl)] at hsplit
  cases hsplit
  have hsign : (sign y).toList = (sign x).toList := by simpa using htext
  exact eq_of_sign_of_magnitude (String.toList_inj.mp hsign.symm)
    (hdecimal.rounds.unique (Magnitude.canonical_ofBits _) (Magnitude.canonical_ofBits _)
      hdecimal'.rounds)

end FloatText

end MatrixLisp
