/-!
# Numerals of a least width

Exponents and escape sequences write a natural number in a given base with at least a
given number of digits, lower case, zeros filling up in front.
-/

namespace Moonbridge.Text

/-- The numeral of `n`, with zeros in front up to a least width. -/
def zeroPadded (base width n : Nat) : List Char :=
  let digits := Nat.toDigits base n
  List.replicate (width - digits.length) '0' ++ digits

/-- Padded digits fill up the width. -/
theorem le_length_zeroPadded (base width n : Nat) :
    width ≤ (zeroPadded base width n).length := by
  simp only [zeroPadded, List.length_append, List.length_replicate]
  omega

end Moonbridge.Text
