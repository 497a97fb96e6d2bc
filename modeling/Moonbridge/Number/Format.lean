import Moonbridge.Number.Decimal
import Moonbridge.Text.Digits

/-!
# Written numbers

Two written forms of a double share their digits, those of the shortest decimal, and
differ in the layout around them. A `NumberFormat` records the layout's decisions and
`write` applies them.
-/

namespace Moonbridge

/-- The layout of a written number. -/
structure NumberFormat where
  /-- Numbers whose point stands at most here are written with an exponent. -/
  leastPoint : Int
  /-- Numbers whose point stands beyond here are written with an exponent. -/
  greatestPoint : Int
  /-- What follows a whole number written without an exponent. -/
  wholeEnding : List Char
  /-- The least number of digits of an exponent. -/
  exponentWidth : Nat
  /-- The text of the positive zero. -/
  zero : String
  /-- The text of the negative zero. -/
  negativeZero : String

namespace NumberFormat

/-- The exponent form: one digit, the others behind a point, and a signed exponent. -/
def scientific (f : NumberFormat) (digits : List Char) (point : Int) : List Char :=
  let exponent := point - 1
  let head :=
    match digits with
    | first :: second :: rest => first :: '.' :: second :: rest
    | short => short
  head ++ 'e' :: (if 0 ≤ exponent then '+' else '-') ::
    Text.zeroPadded 10 f.exponentWidth exponent.natAbs

/-- The digits of a positive number laid out around its decimal point. -/
def layout (f : NumberFormat) (digits : List Char) (point : Int) : List Char :=
  if f.leastPoint < point ∧ point ≤ f.greatestPoint then
    if (digits.length : Int) ≤ point then
      digits ++ List.replicate (point.toNat - digits.length) '0' ++ f.wholeEnding
    else if 0 < point then
      digits.take point.toNat ++ '.' :: digits.drop point.toNat
    else
      '0' :: '.' :: List.replicate (-point).toNat '0' ++ digits
  else
    f.scientific digits point

/-- The written form of a double. -/
def write (f : NumberFormat) (x : Double) : String :=
  if x.isNaN then "NaN"
  else if x.isZero then if x.negative then f.negativeZero else f.zero
  else
    let unsigned :=
      if x.isInfinite then "Infinity"
      else String.ofList (f.layout x.shortest.digits x.shortest.point)
    if x.negative then "-" ++ unsigned else unsigned

end NumberFormat

end Moonbridge
