import Moonbridge.Number.Format
import Moonbridge.Proofs.Number.Rounding
import Moonbridge.Proofs.Text.Numerals

/-!
# The parts of a written number

A written number consists of whole digits, of a fraction and of an exponent, of which the last two
may be missing. Its parts determine a decimal. However the digits of a decimal are laid out, the
parts of what is written make up a decimal of the same value.
-/

namespace Moonbridge.Numeral

open Text

/-- At least one digit and nothing else. -/
structure Digits (text : List Char) : Prop where
  nonempty : text ≠ []
  isDigit : ∀ c ∈ text, c.isDigit = true

/-- The digits in front of the point. A zero stands there alone. -/
structure Whole (text : List Char) : Prop extends Digits text where
  zeroAlone : text.head? = some '0' → text = ['0']

/-- A point with digits, which may be left out, and the digits. -/
inductive Fraction : List Char → List Char → Prop
  | none : Fraction [] []
  | point {digits : List Char} (isDigits : Digits digits) : Fraction ('.' :: digits) digits

/-- An exponent, which may be left out, and its value. -/
inductive Exponent : List Char → Int → Prop
  | none : Exponent [] 0
  | bare {mark : Char} {digits : List Char} (isMark : mark ∈ ['e', 'E'])
      (isDigits : Digits digits) : Exponent (mark :: digits) (Decimal.ofDigits digits)
  | plus {mark : Char} {digits : List Char} (isMark : mark ∈ ['e', 'E'])
      (isDigits : Digits digits) : Exponent (mark :: '+' :: digits) (Decimal.ofDigits digits)
  | minus {mark : Char} {digits : List Char} (isMark : mark ∈ ['e', 'E'])
      (isDigits : Digits digits) : Exponent (mark :: '-' :: digits) (-Decimal.ofDigits digits)

/-- A fraction that is not written has no digits. -/
theorem Fraction.digits_eq_nil {text digits : List Char} (h : Fraction text digits)
    (htext : text = []) : digits = [] := by
  cases h with
  | none => rfl
  | point isDigits => cases htext

/-- An exponent that is not written is zero. -/
theorem Exponent.power_eq_zero {text : List Char} {power : Int} (h : Exponent text power)
    (htext : text = []) : power = 0 := by
  cases h with
  | none => rfl
  | bare isMark isDigits | plus isMark isDigits | minus isMark isDigits => cases htext

/-- The parts of a number without its sign. -/
structure Parts where
  whole : List Char
  fraction : List Char
  /-- The digits of the fraction. -/
  digits : List Char
  exponent : List Char
  /-- The value of the exponent. -/
  power : Int
  isWhole : Whole whole
  isFraction : Fraction fraction digits
  isExponent : Exponent exponent power

/-- A number as it is written. -/
def Parts.text (p : Parts) : List Char := p.whole ++ p.fraction ++ p.exponent

/-- The decimal that is written. -/
def Parts.decimal (p : Parts) : Decimal :=
  ⟨Decimal.ofDigits (p.whole ++ p.digits), p.power - p.digits.length⟩

/-- A written number starts with a digit. -/
theorem Parts.head_text (p : Parts) : ∃ c tail, p.text = c :: tail ∧ c.isDigit = true := by
  obtain ⟨c, tail, hwhole⟩ := List.exists_cons_of_ne_nil p.isWhole.nonempty
  have hc : c.isDigit = true := p.isWhole.isDigit c (by simp [hwhole])
  exact ⟨c, tail ++ p.fraction ++ p.exponent, by simp [Parts.text, hwhole], hc⟩

section Digits

variable {digits others : List Char} {n : Nat}

/-- Digits behind digits are digits. -/
theorem Digits.append (h : Digits digits) (h' : ∀ c ∈ others, c.isDigit = true) :
    Digits (digits ++ others) where
  nonempty := by simp [h.nonempty]
  isDigit := by
    intro c hc
    rcases List.mem_append.mp hc with hc | hc
    · exact h.isDigit c hc
    · exact h' c hc

/-- A natural number is written with digits. -/
theorem digits_toDigits (n : Nat) : Digits (Nat.toDigits 10 n) :=
  ⟨Nat.toDigits_ne_nil, fun _ => isDigit_of_mem_toDigits⟩

/-- Zeros in front of digits are digits too. -/
theorem digits_zeroPadded (width n : Nat) : Digits (zeroPadded 10 width n) :=
  ⟨zeroPadded_ne_nil 10 width n, fun _ => isDigit_of_mem_zeroPadded⟩

/-- Zeros behind a numeral multiply by powers of ten. -/
theorem ofDigits_append_zeros (digits : List Char) (n : Nat) :
    Decimal.ofDigits (digits ++ List.replicate n '0') = Decimal.ofDigits digits * 10 ^ n := by
  rw [ofDigits_eq, Nat.ofDigitChars_append, Nat.ofDigitChars_replicate_zero, Nat.mul_comm]
  rfl

/-- Zeros are digits. -/
theorem isDigit_replicate (n : Nat) : ∀ c ∈ List.replicate n '0', c.isDigit = true := by
  intro c hc
  rw [List.eq_of_mem_replicate hc]
  rfl

/-- The numeral of a number is whole. -/
theorem whole_toDigits (n : Nat) : Whole (Nat.toDigits 10 n) :=
  { digits_toDigits n with zeroAlone := zeroAlone_toDigits }

/-- Digits that do not start with a zero are whole. -/
theorem Digits.whole (h : Digits digits) (hhead : digits.head? ≠ some '0') : Whole digits :=
  { h with zeroAlone := fun hzero => absurd hzero hhead }

end Digits

section Layout

variable {d : Decimal} {f : NumberFormat}

/-- A signed exponent of any width. -/
theorem exponent_zeroPadded (width : Nat) (k : Int) :
    Exponent ('e' :: (if 0 ≤ k then '+' else '-') :: zeroPadded 10 width k.natAbs) k := by
  have hdigits := digits_zeroPadded width k.natAbs
  have hmark : 'e' ∈ ['e', 'E'] := by simp
  split
  · have hplus := Exponent.plus hmark hdigits
    have hvalue : ((k.natAbs : Nat) : Int) = k := by omega
    rwa [ofDigits_zeroPadded, hvalue] at hplus
  · have hminus := Exponent.minus hmark hdigits
    have hvalue : -((k.natAbs : Nat) : Int) = k := by omega
    rwa [ofDigits_zeroPadded, hvalue] at hminus

/-- A text has parts that make up a decimal of the same value. Where whole numbers have an ending,
it has a fraction or an exponent. -/
def Lays (f : NumberFormat) (text : List Char) (d : Decimal) : Prop :=
  ∃ p : Parts, p.text = text ∧ p.decimal.value = d.value ∧
    (f.wholeEnding ≠ [] → p.fraction ≠ [] ∨ p.exponent ≠ [])

/-- The digits of a decimal are digits. -/
theorem digits_digits (d : Decimal) : Digits d.digits := digits_toDigits d.coefficient

/-- The digits of a decimal make up its coefficient. -/
theorem ofDigits_digits (d : Decimal) : Decimal.ofDigits d.digits = d.coefficient :=
  ofDigits_toDigits d.coefficient

/-- The digits of a whole number are followed by zeros up to the point, and by zeros behind it. -/
theorem lays_whole (hpos : 0 < d.coefficient) (hpoint : (d.digits.length : Int) ≤ d.point)
    {n : Nat} (hending : Fraction f.wholeEnding (List.replicate n '0')) :
    Lays f (d.digits ++ List.replicate (d.point.toNat - d.digits.length) '0' ++ f.wholeEnding)
      d := by
  have hdigits : Digits (d.digits ++ List.replicate (d.point.toNat - d.digits.length) '0') :=
    (digits_digits d).append (isDigit_replicate _)
  have hwhole : Whole (d.digits ++ List.replicate (d.point.toNat - d.digits.length) '0') := by
    refine hdigits.whole ?_
    rw [List.head?_append_of_ne_nil _ (digits_digits d).nonempty]
    exact head_toDigits_ne hpos
  refine ⟨⟨_, _, _, _, _, hwhole, hending, .none⟩, by simp [Parts.text], ?_, Or.inl⟩
  have hexponent : d.exponent = ((d.point.toNat - d.digits.length : Nat) : Int) := by
    unfold Decimal.point at hpoint ⊢
    omega
  simp only [Parts.decimal, Decimal.value, ofDigits_append_zeros, ofDigits_digits,
    List.length_replicate, zero_sub]
  rw [hexponent, zpow_neg, zpow_natCast, zpow_natCast]
  push_cast
  field_simp

/-- The point stands among the digits. -/
theorem lays_inside (hpos : 0 < d.coefficient) (hpoint : 0 < d.point)
    (hinside : d.point < d.digits.length) :
    Lays f (d.digits.take d.point.toNat ++ '.' :: d.digits.drop d.point.toNat) d := by
  have hwhole : Whole (d.digits.take d.point.toNat) := by
    refine Digits.whole ⟨?_, ?_⟩ ?_
    · simp only [ne_eq, List.take_eq_nil_iff, (digits_digits d).nonempty, or_false]
      omega
    · exact fun c hc => (digits_digits d).isDigit c (List.mem_of_mem_take hc)
    · rw [List.head?_take, if_neg (by omega)]
      exact head_toDigits_ne hpos
  have hfraction : Digits (d.digits.drop d.point.toNat) := by
    refine ⟨?_, fun c hc => (digits_digits d).isDigit c (List.mem_of_mem_drop hc)⟩
    simp only [ne_eq, List.drop_eq_nil_iff]
    omega
  refine ⟨⟨_, _, _, _, _, hwhole, .point hfraction, .none⟩, by simp [Parts.text], ?_, by simp⟩
  have hexponent : (0 : Int) - (d.digits.drop d.point.toNat).length = d.exponent := by
    rw [List.length_drop]
    unfold Decimal.point at hpoint hinside ⊢
    omega
  simp only [Parts.decimal, List.take_append_drop, ofDigits_digits, hexponent]

/-- Zeros stand between the point and the digits. -/
theorem lays_small (hpoint : d.point ≤ 0) :
    Lays f ('0' :: '.' :: List.replicate (-d.point).toNat '0' ++ d.digits) d := by
  have hwhole : Whole ['0'] := ⟨⟨by simp, by simp⟩, fun _ => rfl⟩
  have hfraction : Digits (List.replicate (-d.point).toNat '0' ++ d.digits) := by
    refine ⟨by simp [(digits_digits d).nonempty], fun c hc => ?_⟩
    rcases List.mem_append.mp hc with hc | hc
    · exact isDigit_replicate _ c hc
    · exact (digits_digits d).isDigit c hc
  refine ⟨⟨_, _, _, _, _, hwhole, .point hfraction, .none⟩, by simp [Parts.text], ?_, by simp⟩
  have hcoefficient : Decimal.ofDigits
      (['0'] ++ (List.replicate (-d.point).toNat '0' ++ d.digits)) = d.coefficient := by
    rw [← List.append_assoc, ← List.replicate_one, ← List.replicate_add, ofDigits_zeros_append,
      ofDigits_digits]
  have hexponent : (0 : Int) - (List.replicate (-d.point).toNat '0' ++ d.digits).length =
      d.exponent := by
    rw [List.length_append, List.length_replicate]
    unfold Decimal.point at hpoint ⊢
    omega
  simp only [Parts.decimal, hcoefficient, hexponent]

/-- In the exponent form one digit stands in front of the point. -/
theorem lays_scientific (hpos : 0 < d.coefficient) :
    Lays f (f.scientific d.digits d.point) d := by
  have hdigits := digits_digits d
  have hhead : d.digits.head? ≠ some '0' := head_toDigits_ne hpos
  have hvalue := ofDigits_digits d
  have hpoint : d.point = d.digits.length + d.exponent := rfl
  have hexponent := exponent_zeroPadded f.exponentWidth (d.point - 1)
  unfold NumberFormat.scientific
  generalize d.digits = digits at *
  match digits with
  | [] => exact absurd rfl hdigits.nonempty
  | [first] =>
    refine ⟨⟨_, _, _, _, _, hdigits.whole hhead, .none, hexponent⟩, by simp [Parts.text], ?_,
      by simp⟩
    have hscale : d.point - 1 - ([] : List Char).length = d.exponent := by
      simp only [List.length_cons, List.length_nil] at hpoint ⊢
      omega
    simp only [Parts.decimal, List.append_nil, hvalue, hscale]
  | first :: second :: others =>
    have hfirst : Whole [first] := by
      refine Digits.whole ⟨by simp, fun c hc => hdigits.isDigit c ?_⟩ (by simpa using hhead)
      exact List.mem_cons.mpr (Or.inl (List.mem_singleton.mp hc))
    have hothers : Digits (second :: others) :=
      ⟨by simp, fun c hc => hdigits.isDigit c (List.mem_cons_of_mem _ hc)⟩
    refine ⟨⟨_, _, _, _, _, hfirst, .point hothers, hexponent⟩, by simp [Parts.text], ?_, by simp⟩
    have hscale : d.point - 1 - (second :: others).length = d.exponent := by
      simp only [List.length_cons] at hpoint ⊢
      omega
    simp only [Parts.decimal, List.singleton_append, hvalue, hscale]

/-- In every layout the digits of a decimal are written with its value. -/
theorem lays_layout (hpos : 0 < d.coefficient) {n : Nat}
    (hending : Fraction f.wholeEnding (List.replicate n '0')) :
    Lays f (f.layout d.digits d.point) d := by
  unfold NumberFormat.layout
  split
  · by_cases hwhole : (d.digits.length : Int) ≤ d.point
    · rw [if_pos hwhole]
      exact lays_whole hpos hwhole hending
    · rw [if_neg hwhole]
      by_cases hpoint : 0 < d.point
      · rw [if_pos hpoint]
        exact lays_inside hpos hpoint (by omega)
      · rw [if_neg hpoint]
        exact lays_small (by omega)
  · exact lays_scientific hpos

/-- The shortest decimal of a positive double is written with its value. -/
theorem lays_shortest {x : Double} (hx : 0 < x.magnitude.val) {n : Nat}
    (hending : Fraction f.wholeEnding (List.replicate n '0')) :
    Lays f (f.layout x.shortest.digits x.shortest.point) x.shortest :=
  lays_layout (Decimal.coefficient_pos ((Double.shortest_rounds hx).pos hx)) hending

end Layout

end Moonbridge.Numeral
