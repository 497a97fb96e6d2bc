import Moonbridge.Number.Decimal
import Moonbridge.Text.Digits

/-!
# Runs and numerals

A reader takes a run of characters of one class up to the first character outside it. The numeral
of a natural number is such a run of digits: it does not start with a zero unless it is one, and it
is read back as the number.
-/

namespace Moonbridge.Text

/-- The first character of a text, if there is one, is not of a class. -/
def Stops (kind : Char → Bool) (rest : List Char) : Prop :=
  ∀ c ∈ rest.head?, kind c = false

section Runs

variable {kind : Char → Bool} {run rest : List Char}

/-- A run of some kind is empty where it stops at once. -/
theorem takeWhile_eq_nil (hrest : Stops kind rest) : rest.takeWhile kind = [] := by
  cases rest with
  | nil => rfl
  | cons c rest => simp [hrest c rfl]

/-- A run does not go on where a character of another class follows. -/
theorem takeWhile_append_of_stops (text : List Char) (hrest : Stops kind rest) :
    (text ++ rest).takeWhile kind = text.takeWhile kind := by
  induction text with
  | nil => exact takeWhile_eq_nil hrest
  | cons c text ih => simp only [List.cons_append, List.takeWhile_cons, ih]

/-- A run is taken up to where it stops. -/
theorem takeWhile_run (hrun : ∀ c ∈ run, kind c = true) (hrest : Stops kind rest) :
    (run ++ rest).takeWhile kind = run := by
  rw [List.takeWhile_append_of_pos hrun, takeWhile_eq_nil hrest, List.append_nil]

/-- A run is dropped up to where it stops. -/
theorem dropWhile_run (hrun : ∀ c ∈ run, kind c = true) (hrest : Stops kind rest) :
    (run ++ rest).dropWhile kind = rest := by
  rw [List.dropWhile_append_of_pos hrun]
  cases rest with
  | nil => simp
  | cons c rest => simp [hrest c rfl]

end Runs

section Digits

/-- Two ways to evaluate digits agree. -/
theorem ofDigits_eq (digits : List Char) : Decimal.ofDigits digits = Nat.ofDigitChars 10 digits 0 :=
  rfl

@[simp] theorem ofDigits_toDigits (n : Nat) : Decimal.ofDigits (Nat.toDigits 10 n) = n :=
  Nat.ofDigitChars_ten_toDigits

/-- Zeros in front of a numeral do not count. -/
theorem ofDigits_zeros_append (n : Nat) (digits : List Char) :
    Decimal.ofDigits (List.replicate n '0' ++ digits) = Decimal.ofDigits digits := by
  rw [ofDigits_eq, Nat.ofDigitChars_append, Nat.ofDigitChars_replicate_zero, Nat.mul_zero]
  rfl

/-- A number in decimal is written with digits. -/
theorem isDigit_of_mem_toDigits {n : Nat} {c : Char} (h : c ∈ Nat.toDigits 10 n) :
    c.isDigit = true :=
  Nat.isDigit_of_mem_toDigits (by decide) (by decide) h

/-- The numeral of a positive number does not start with a zero. -/
theorem head_toDigits_ne {n : Nat} (h : 0 < n) : (Nat.toDigits 10 n).head? ≠ some '0' := by
  induction n using Nat.strongRecOn with
  | ind n ih =>
    rw [Nat.toDigits_eq_if (by decide)]
    split
    · rename_i hsmall
      have hall : ∀ n < 10, 0 < n → n.digitChar ≠ '0' := by decide
      simpa using hall n hsmall h
    · have hquotient := ih (n / 10) (by omega) (by omega)
      cases hdigits : Nat.toDigits 10 (n / 10) with
      | nil => exact absurd hdigits Nat.toDigits_ne_nil
      | cons c cs => simpa [hdigits] using hquotient

/-- A zero stands alone at the front of a numeral. -/
theorem zeroAlone_toDigits {n : Nat} (h : (Nat.toDigits 10 n).head? = some '0') :
    Nat.toDigits 10 n = ['0'] := by
  rcases Nat.eq_zero_or_pos n with rfl | hpos
  · exact Nat.toDigits_zero 10
  · exact absurd h (head_toDigits_ne hpos)

/-- A padded numeral is read back as the number. -/
@[simp] theorem ofDigits_zeroPadded (width n : Nat) :
    Decimal.ofDigits (zeroPadded 10 width n) = n := by
  rw [zeroPadded, ofDigits_zeros_append, ofDigits_toDigits]

/-- A padded number in decimal is written with digits. -/
theorem isDigit_of_mem_zeroPadded {width n : Nat} {c : Char} (h : c ∈ zeroPadded 10 width n) :
    c.isDigit = true := by
  rcases List.mem_append.mp h with h | h
  · rw [List.eq_of_mem_replicate h]
    rfl
  · exact isDigit_of_mem_toDigits h

/-- A padded number has at least one digit. -/
theorem zeroPadded_ne_nil (base width n : Nat) : zeroPadded base width n ≠ [] := by
  simp [zeroPadded, Nat.toDigits_ne_nil]

/-- The last digit of a padded numeral stands behind the others. -/
theorem zeroPadded_succ {base : Nat} (hbase : 1 < base) (width n : Nat) :
    zeroPadded base (width + 2) n =
      zeroPadded base (width + 1) (n / base) ++ [(n % base).digitChar] := by
  simp only [zeroPadded]
  rw [Nat.toDigits_eq_if hbase]
  split
  · rename_i hsmall
    rw [Nat.div_eq_of_lt hsmall, Nat.mod_eq_of_lt hsmall, Nat.toDigits_zero]
    simp [List.replicate_succ']
  · simp

end Digits

end Moonbridge.Text
