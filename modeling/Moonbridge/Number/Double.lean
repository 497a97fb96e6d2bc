/-!
# Double-precision numbers

A number of the source language is an IEEE 754 double. It is held by its sign and
by its remaining 63 bits read as one natural number, so that the magnitudes of the
non-negative doubles stand in numerical order. A positive finite double denotes
`significand * 2 ^ scale`; rounding a quotient of natural numbers to the nearest
double, ties to the even significand, is exact integer arithmetic throughout.
Powers are written `Nat.pow` for the definitions to mean one thing, whichever other
powers are in scope.
-/

namespace Moonbridge

/-- A double: the sign bit, and the exponent and fraction bits as one number. -/
structure Double where
  negative : Bool
  magnitude : Fin (Nat.pow 2 63)
  deriving DecidableEq, Repr

namespace Double

/-- The magnitude of an infinity: every exponent bit set and no fraction bit. -/
def infiniteMagnitude : Nat := 2047 * Nat.pow 2 52

/-- The biased exponent field. -/
def exponent (x : Double) : Nat := x.magnitude.val / Nat.pow 2 52

/-- The fraction field. -/
def fraction (x : Double) : Nat := x.magnitude.val % Nat.pow 2 52

/-- Whether a double is not a number: it lies beyond the infinities. -/
def isNaN (x : Double) : Bool := infiniteMagnitude < x.magnitude.val

/-- Whether a double is one of the two infinities. -/
def isInfinite (x : Double) : Bool := x.magnitude.val == infiniteMagnitude

/-- Whether a double is one of the two zeros. -/
def isZero (x : Double) : Bool := x.magnitude.val == 0

/-- A normal double has a hidden leading bit; a subnormal one has none. -/
def significand (x : Double) : Nat :=
  if x.exponent = 0 then x.fraction else Nat.pow 2 52 + x.fraction

/-- The power of two of the last place; subnormal doubles share the least normal one. -/
def scale (x : Double) : Int := (max 1 x.exponent : Nat) - 1075

/-- The double with the given 64 bits, the sign first. -/
def ofBits (bits : UInt64) : Double where
  negative := Nat.pow 2 63 ≤ bits.toNat
  magnitude := ⟨bits.toNat % Nat.pow 2 63, Nat.mod_lt _ (by decide)⟩

/-- The 64 bits of a double, the sign first. -/
def toBits (x : Double) : UInt64 :=
  UInt64.ofNat ((if x.negative then Nat.pow 2 63 else 0) + x.magnitude.val)

/-- No bit is lost: the sign and the magnitude come back from the 64 bits. -/
theorem ofBits_toBits (x : Double) : ofBits x.toBits = x := by
  obtain ⟨negative, magnitude, hm⟩ := x
  have hpower : Nat.pow 2 63 = 9223372036854775808 := rfl
  have hn : (UInt64.ofNat ((if negative then Nat.pow 2 63 else 0) + magnitude)).toNat =
      (if negative then Nat.pow 2 63 else 0) + magnitude := by
    rw [UInt64.toNat_ofNat']
    apply Nat.mod_eq_of_lt
    split <;> omega
  simp only [ofBits, toBits, hn, mk.injEq, Fin.mk.injEq]
  cases negative
  · simp only [Bool.false_eq_true, if_false, decide_eq_false_iff_not, hpower]
    omega
  · simp only [if_true, decide_eq_true_eq, hpower]
    omega

/-- The quotient rounded to the nearest natural number, a tie to the even one. -/
def roundHalfEven (num den : Nat) : Nat :=
  let below := num / den
  let twice := 2 * (num % den)
  if twice < den then below
  else if den < twice then below + 1
  else if below % 2 = 0 then below
  else below + 1

/-- The greatest power of two that is at most `num / den`, for positive `num` and `den`. -/
def floorLog2 (num den : Nat) : Int :=
  let guess : Int := (num.log2 : Int) - den.log2
  if num * Nat.pow 2 (-guess).toNat < den * Nat.pow 2 guess.toNat then guess - 1 else guess

/-- The power of two of the last place of the doubles around `num / den`. -/
def lastPlace (num den : Nat) : Int := max (-1074) (floorLog2 num den - 52)

/-- The magnitude nearest to `num / den`. A significand that rounds up to the next
power of two carries into the exponent, and what is too large becomes infinite. -/
def magnitudeOfRatio (num den : Nat) : Nat :=
  if num = 0 then 0
  else
    let place := lastPlace num den
    let rounded := roundHalfEven (num * Nat.pow 2 (-place).toNat) (den * Nat.pow 2 place.toNat)
    min infiniteMagnitude ((place + 1074).toNat * Nat.pow 2 52 + rounded)

/-- However large a ratio is, it rounds to a magnitude up to that of infinity. -/
theorem magnitudeOfRatio_le (num den : Nat) :
    magnitudeOfRatio num den ≤ infiniteMagnitude := by
  unfold magnitudeOfRatio
  split
  · exact Nat.zero_le _
  · exact Nat.min_le_left _ _

/-- The non-negative double nearest to `num / den`. -/
def ofRatio (num den : Nat) : Double where
  negative := false
  magnitude := ⟨magnitudeOfRatio num den,
    Nat.lt_of_le_of_lt (magnitudeOfRatio_le num den) (by decide)⟩

@[simp] theorem ofRatio_zero (den : Nat) : ofRatio 0 den = ⟨false, 0⟩ := rfl

end Double

end Moonbridge
