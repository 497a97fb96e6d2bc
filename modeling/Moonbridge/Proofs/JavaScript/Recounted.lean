import Mathlib.Data.List.DropRight
import Moonbridge.Proofs.JavaScript.Numeral
import Moonbridge.Proofs.Number.Shortest

/-!
# Digits and place of a written number

The significant digits of a written number and the place of its point are found on the text alone.
The digits around the point lose their zeros at both ends. The place of the point is counted: the
whole digits stand in front of it, an exponent moves it, and the zeros dropped at the front are
counted no more. On every written number other than zero this finds the digits and the place that
determine its value.
-/

namespace Moonbridge.JavaScript

open Numeral

/-- The text in front of the first mark and the text behind it. Without a mark all is in front. -/
def partition (mark : Char) (text : List Char) : List Char × List Char :=
  (text.takeWhile (· != mark), (text.dropWhile (· != mark)).drop 1)

/-- The value of what stands behind the letter of an exponent, zero if nothing does. -/
def powerOf (text : List Char) : ℤ :=
  let (sign, digits) := Lexeme.readSign text
  sign * Decimal.ofDigits digits

/-- Digits without the zeros in front of them. -/
def leading (digits : List Char) : List Char := digits.dropWhile (· == '0')

/-- Digits without the zeros around them. -/
def stripped (digits : List Char) : List Char := (leading digits).rdropWhile (· == '0')

/-- The significant digits of a written number and the place of its point, counted from the first
of them. -/
def recount (text : List Char) : List Char × ℤ :=
  let (mantissa, power) := partition 'e' text
  let (whole, fraction) := partition '.' mantissa
  let digits := whole ++ fraction
  (stripped digits, whole.length + powerOf power - ((digits.length : ℤ) - (leading digits).length))

section Partition

variable {mark : Char} {front rest : List Char}

/-- A text is taken apart at the first mark. -/
theorem partition_mark (h : mark ∉ front) :
    partition mark (front ++ mark :: rest) = (front, rest) := by
  have hfront : ∀ c ∈ front, (c != mark) = true := fun c hc =>
    bne_iff_ne.mpr (ne_of_mem_of_not_mem hc h)
  have hstops : Text.Stops (· != mark) (mark :: rest) := by simp [Text.Stops]
  rw [partition, Text.takeWhile_run hfront hstops, Text.dropWhile_run hfront hstops, List.drop_one,
    List.tail_cons]

/-- A text without a mark is all in front of it. -/
theorem partition_unmarked (h : mark ∉ front) : partition mark front = (front, []) := by
  have hfront : ∀ c ∈ front, (c != mark) = true := fun c hc =>
    bne_iff_ne.mpr (ne_of_mem_of_not_mem hc h)
  rw [partition, List.takeWhile_eq_self_iff.mpr hfront, List.dropWhile_eq_nil_iff.mpr hfront,
    List.drop_nil]

/-- Among digits there is no other character. -/
theorem notMem_of_isDigit {text : List Char} {c : Char} (h : ∀ d ∈ text, d.isDigit = true)
    (hc : c.isDigit = false) : c ∉ text := by
  intro hmem
  simp [h c hmem] at hc

/-- A fraction has a point and digits. -/
theorem isDigit_of_fraction {fraction digits : List Char} (h : Fraction fraction digits) :
    (∀ c ∈ digits, c.isDigit = true) ∧ ∀ c ∈ fraction, c = '.' ∨ c.isDigit = true := by
  cases h with
  | none => simp
  | point isDigits =>
    exact ⟨isDigits.isDigit, by simpa using fun c hc => Or.inr (isDigits.isDigit c hc)⟩

/-- A number is taken apart at its point. -/
theorem partition_fraction {whole fraction digits : List Char} (hwhole : Digits whole)
    (h : Fraction fraction digits) : partition '.' (whole ++ fraction) = (whole, digits) := by
  have hpoint : '.' ∉ whole := notMem_of_isDigit hwhole.isDigit (by decide)
  cases h with
  | none => rw [List.append_nil, partition_unmarked hpoint]
  | point isDigits => exact partition_mark hpoint

/-- The value of an exponent is read behind its letter, which must be a small one. -/
theorem partition_exponent {exponent : List Char} {power : ℤ} (h : Exponent exponent power)
    (hletter : 'E' ∉ exponent) (hfront : 'e' ∉ front) : ∃ written,
      partition 'e' (front ++ exponent) = (front, written) ∧ powerOf written = power := by
  cases h with
  | none => exact ⟨[], by rw [List.append_nil, partition_unmarked hfront], rfl⟩
  | @bare mark digits isMark isDigits =>
    obtain rfl : mark = 'e' := by grind
    refine ⟨digits, partition_mark hfront, ?_⟩
    have hsign := readSign_digits isDigits []
    rw [List.append_nil] at hsign
    simp only [powerOf, hsign, one_mul]
  | @plus mark digits isMark isDigits =>
    obtain rfl : mark = 'e' := by grind
    exact ⟨'+' :: digits, partition_mark hfront, one_mul _⟩
  | @minus mark digits isMark isDigits =>
    obtain rfl : mark = 'e' := by grind
    exact ⟨'-' :: digits, partition_mark hfront, neg_one_mul _⟩

end Partition

section Stripping

variable {digits : List Char}

/-- What is dropped in front are zeros. -/
theorem exists_zeros_leading (digits : List Char) :
    ∃ n, digits = List.replicate n '0' ++ leading digits := by
  have hzeros : digits.takeWhile (· == '0') =
      List.replicate (digits.takeWhile (· == '0')).length '0' :=
    List.eq_replicate_of_mem fun c hc => by simpa using List.mem_takeWhile_imp hc
  exact ⟨_, by rw [← hzeros, leading, List.takeWhile_append_dropWhile]⟩

/-- What is dropped behind are zeros. -/
theorem exists_zeros_stripped (digits : List Char) :
    ∃ n, leading digits = stripped digits ++ List.replicate n '0' := by
  have hzeros : (leading digits).rtakeWhile (· == '0') =
      List.replicate ((leading digits).rtakeWhile (· == '0')).length '0' :=
    List.eq_replicate_of_mem fun c hc => by simpa using List.mem_rtakeWhile_imp hc
  exact ⟨_, by rw [← hzeros, stripped, List.rdropWhile_append_rtakeWhile]⟩

/-- The zeros behind the significant digits multiply by powers of ten, those in front of them do
not count. -/
theorem ofDigits_leading (digits : List Char) :
    Decimal.ofDigits digits = Decimal.ofDigits (leading digits) := by
  obtain ⟨n, hfront⟩ := exists_zeros_leading digits
  conv_lhs => rw [hfront, Text.ofDigits_zeros_append]

/-- The digits of a positive number are not only zeros. -/
theorem stripped_ne_nil (hpos : 0 < Decimal.ofDigits digits) : stripped digits ≠ [] := by
  obtain ⟨n, hback⟩ := exists_zeros_stripped digits
  intro hnil
  have hvalue := Text.ofDigits_zeros_append n []
  rw [ofDigits_leading, hback, hnil, List.nil_append] at hpos
  rw [List.append_nil] at hvalue
  exact absurd (hvalue ▸ hpos) (by decide)

/-- Digits that write a positive number have significant digits between the zeros. -/
theorem significant_stripped (hdigits : ∀ c ∈ digits, c.isDigit = true)
    (hpos : 0 < Decimal.ofDigits digits) : Significant (stripped digits) := by
  have hne := stripped_ne_nil hpos
  obtain ⟨n, hfront⟩ := exists_zeros_leading digits
  obtain ⟨m, hback⟩ := exists_zeros_stripped digits
  have hsubset : ∀ c ∈ stripped digits, c ∈ digits := by
    intro c hc
    rw [hfront, hback]
    simp [hc]
  refine ⟨⟨hne, fun c hc => hdigits c (hsubset c hc)⟩, ?_, ?_⟩
  · -- Dropping zeros behind keeps the first digit.
    have hhead : (leading digits).head? = (stripped digits).head? := by
      rw [hback, List.head?_append_of_ne_nil _ hne]
    have hnot := List.head?_dropWhile_not (· == '0') digits
    intro hzero
    rw [← leading, hhead, hzero] at hnot
    simp at hnot
  · have hnot := List.rdropWhile_last_not (· == '0') (leading digits) hne
    intro hzero
    rw [List.getLast?_eq_some_getLast hne] at hzero
    exact hnot (beq_iff_eq.mpr (Option.some.inj hzero))

end Stripping

section Recounting

/-- A written number is taken apart into its parts. -/
theorem recount_text (p : Parts) (hletter : 'E' ∉ p.text) : recount p.text =
    (stripped (p.whole ++ p.digits), p.whole.length + p.power -
      (((p.whole ++ p.digits).length : ℤ) - (leading (p.whole ++ p.digits)).length)) := by
  have hmantissa : 'e' ∉ p.whole ++ p.fraction := by
    intro h
    rcases List.mem_append.mp h with h | h
    · exact absurd (p.isWhole.isDigit _ h) (by decide)
    · exact absurd ((isDigit_of_fraction p.isFraction).2 _ h) (by decide)
  have hexponent : 'E' ∉ p.exponent := fun h => hletter (by simp [Parts.text, h])
  obtain ⟨written, hpartition, hpower⟩ := partition_exponent p.isExponent hexponent hmantissa
  simp only [recount, Parts.text, hpartition, partition_fraction p.isWhole.toDigits p.isFraction,
    hpower]

/-- The digits and the place of the point that are counted on a written number determine its
value. -/
theorem placed_recount (p : Parts) (hletter : 'E' ∉ p.text) (hpos : 0 < p.decimal.coefficient) :
    Significant (recount p.text).1 ∧
      placed (recount p.text).1 (recount p.text).2 = p.decimal.value := by
  have hdigits : ∀ c ∈ p.whole ++ p.digits, c.isDigit = true := by
    intro c hc
    rcases List.mem_append.mp hc with hc | hc
    · exact p.isWhole.isDigit c hc
    · exact (isDigit_of_fraction p.isFraction).1 c hc
  rw [recount_text p hletter]
  refine ⟨significant_stripped hdigits hpos, ?_⟩
  obtain ⟨n, hback⟩ := exists_zeros_stripped (p.whole ++ p.digits)
  have hvalue : Decimal.ofDigits (p.whole ++ p.digits) =
      Decimal.ofDigits (stripped (p.whole ++ p.digits)) * 10 ^ n := by
    rw [ofDigits_leading, hback, ofDigits_append_zeros]
  -- The digits that are left and the zeros behind them stand in front of the point and behind it.
  have hexponent : p.whole.length + p.power -
      (((p.whole ++ p.digits).length : ℤ) - (leading (p.whole ++ p.digits)).length) -
        (stripped (p.whole ++ p.digits)).length = n + (p.power - p.digits.length) := by
    rw [hback, List.length_append, List.length_append, List.length_replicate]
    push_cast
    ring
  have hten : (10 : ℚ) ≠ 0 := by norm_num
  simp only [placed, hexponent, Parts.decimal, Decimal.value, hvalue]
  rw [zpow_add₀ hten, zpow_natCast]
  push_cast
  ring

example : recount "120000000.0".toList = (['1', '2'], 9) := by decide +kernel

end Recounting

end Moonbridge.JavaScript
