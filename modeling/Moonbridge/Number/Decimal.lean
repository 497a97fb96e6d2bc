import Moonbridge.Number.Double

/-!
# Decimal numerals

A decimal is a coefficient and a power of ten. Reading one rounds it to the nearest
double. The other way, the shortest decimal of a positive finite double is the point
nearest to it on the coarsest power-of-ten grid that has a point among the reals that
round to this double.
-/

namespace Moonbridge

/-- The number `coefficient * 10 ^ exponent`. -/
structure Decimal where
  coefficient : Nat
  exponent : Int
  deriving DecidableEq, Repr

namespace Decimal

/-- The value of a decimal digit. -/
def digitValue (c : Char) : Nat := c.toNat - '0'.toNat

/-- The number written by decimal digits, most significant first. -/
def ofDigits (digits : List Char) : Nat :=
  digits.foldl (fun value c => 10 * value + digitValue c) 0

/-- The decimal written as whole digits, a point and fraction digits. -/
def ofNumeral (whole fraction : List Char) : Decimal :=
  ⟨ofDigits (whole ++ fraction), -(fraction.length : Int)⟩

/-- The digits of the coefficient. -/
def digits (d : Decimal) : List Char := Nat.toDigits 10 d.coefficient

/-- Where the decimal point stands, counted from the first digit: the number is
`0.digits * 10 ^ point`. -/
def point (d : Decimal) : Int := (d.digits.length : Int) + d.exponent

/-- The double nearest to a decimal. -/
def toDouble (d : Decimal) : Double :=
  Double.ofRatio (d.coefficient * Nat.pow 10 d.exponent.toNat) (Nat.pow 10 (-d.exponent).toNat)

end Decimal

namespace Double

/-- Four times the significand: the value in quarters of the last place. -/
def quarters (x : Double) : Nat := 4 * x.significand

/-- The lower end, in quarters, of the reals that round to `x`. The doubles below a
power of two are twice as dense, so the end is nearer there. -/
def lowerQuarters (x : Double) : Nat :=
  if x.fraction = 0 ∧ 1 < x.exponent then x.quarters - 1 else x.quarters - 2

/-- The upper end, in quarters, of the reals that round to `x`. -/
def upperQuarters (x : Double) : Nat := x.quarters + 2

/-- A quarter of the last place in units that it shares with `gridStep`. -/
def quarterStep (x : Double) (e : Int) : Nat :=
  Nat.pow 2 (x.scale - 2).toNat * Nat.pow 10 (-e).toNat

/-- The grid step `10 ^ e` in units that it shares with `quarterStep`. -/
def gridStep (x : Double) (e : Int) : Nat :=
  Nat.pow 10 e.toNat * Nat.pow 2 (2 - x.scale).toNat

/-- Whether the grid point `k * 10 ^ e` rounds to `x`. The ends of the interval belong
to it exactly when the significand is even. -/
def roundsFrom (x : Double) (e : Int) (k : Nat) : Bool :=
  let low := x.lowerQuarters * x.quarterStep e
  let high := x.upperQuarters * x.quarterStep e
  let here := k * x.gridStep e
  if x.significand % 2 = 0 then low ≤ here && here ≤ high else low < here && here < high

/-- The point nearest to `x` among those points of the grid of step `10 ^ e` that round
to `x`, a tie going to the even coefficient. -/
def onGrid? (x : Double) (e : Int) : Option Nat :=
  let value := x.quarters * x.quarterStep e
  let below := value / x.gridStep e
  match x.roundsFrom e below, x.roundsFrom e (below + 1) with
  | true, true => some (roundHalfEven value (x.gridStep e))
  | true, false => some below
  | false, true => some (below + 1)
  | false, false => none

/-- The first hit on the grids of step `10 ^ e`, `10 ^ (e - 1)`, …; after `n` grids the
value itself, which lies on the grid of its own scale. -/
def coarsest (x : Double) : Nat → Int → Decimal
  | 0, _ =>
    ⟨x.significand * Nat.pow 2 x.scale.toNat * Nat.pow 5 (-x.scale).toNat, min 0 x.scale⟩
  | n + 1, e =>
    match x.onGrid? e with
    | some k => ⟨k, e⟩
    | none => coarsest x n (e - 1)

/-- A power of ten above every real that rounds to `x`. -/
def gridStart (x : Double) : Nat :=
  let ceiling := x.upperQuarters * Nat.pow 2 (x.scale - 2).toNat / Nat.pow 2 (2 - x.scale).toNat
  (Nat.toDigits 10 ceiling).length

/-- The shortest decimal that rounds to a positive finite double, and of those the
nearest to it. -/
def shortest (x : Double) : Decimal :=
  x.coarsest (x.gridStart + (-x.scale).toNat) x.gridStart

end Double

end Moonbridge
