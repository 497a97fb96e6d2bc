import Mathlib.Algebra.Order.Field.Power
import Mathlib.Data.Nat.Log
import Mathlib.Data.Rat.Cast.Order
import Mathlib.Tactic.FieldSimp
import Mathlib.Tactic.Linarith
import Mathlib.Tactic.Positivity
import Mathlib.Tactic.Ring
import Moonbridge.Number.Decimal

/-!
# Rounding to a double

The rationals that round to a positive finite double form an interval around it. Its ends lie
half way to the neighbours, and they belong to it exactly when the significand is even. The
shortest decimal of a double lies in the interval, so it is read back as the same double; so
does every decimal of the same value.
-/

namespace Moonbridge

/-- An interval that has both its ends or neither. -/
def Between (closed : Prop) [Decidable closed] (low high q : ℚ) : Prop :=
  if closed then low ≤ q ∧ q ≤ high else low < q ∧ q < high

namespace Between

variable {closed : Prop} [Decidable closed] {low high q : ℚ}

/-- What lies in an interval lies between its ends, which may belong to it. -/
theorem le_and_le (h : Between closed low high q) : low ≤ q ∧ q ≤ high := by
  unfold Between at h
  split at h
  · exact h
  · exact ⟨h.1.le, h.2.le⟩

/-- What lies strictly between the ends lies in the interval, closed or not. -/
theorem of_lt (hlow : low < q) (hhigh : q < high) : Between closed low high q := by
  unfold Between
  split
  · exact ⟨hlow.le, hhigh.le⟩
  · exact ⟨hlow, hhigh⟩

/-- A wider interval holds whatever the narrower one holds. -/
theorem widen {low' high' : ℚ} (h : Between closed low high q) (hlow : low' ≤ low)
    (hhigh : high ≤ high') : Between closed low' high' q := by
  by_cases hclosed : closed
  · simp only [Between, if_pos hclosed] at h ⊢
    exact ⟨hlow.trans h.1, h.2.trans hhigh⟩
  · simp only [Between, if_neg hclosed] at h ⊢
    exact ⟨hlow.trans_lt h.1, h.2.trans_le hhigh⟩

/-- An interval may be scaled by a positive factor. -/
theorem mul_iff {k : ℚ} (hk : 0 < k) :
    Between closed (low * k) (high * k) (q * k) ↔ Between closed low high q := by
  simp only [Between, mul_le_mul_iff_of_pos_right hk, mul_lt_mul_iff_of_pos_right hk]

end Between

/-- A power with an integer exponent as a quotient of powers with natural exponents. -/
theorem zpow_eq_div {b : ℚ} (hb : b ≠ 0) (p : ℤ) : b ^ p = b ^ p.toNat / b ^ (-p).toNat := by
  rw [← zpow_natCast, ← zpow_natCast, ← zpow_sub₀ hb]
  congr 1
  omega

namespace Double

/-- The rationals that round to a natural number, a tie going to the even one. -/
def Nearest (m : ℕ) (q : ℚ) : Prop := Between (m % 2 = 0) (m - 1 / 2) (m + 1 / 2) q

/-- The rationals that round to a positive finite double. -/
def Rounds (x : Double) (q : ℚ) : Prop :=
  Between (x.significand % 2 = 0) (x.lowerQuarters * 2 ^ (x.scale - 2))
    (x.upperQuarters * 2 ^ (x.scale - 2)) q

section RoundHalfEven

variable {num den : ℕ}

/-- A quotient is rounded to one of the two natural numbers around it. -/
theorem roundHalfEven_cases (num den : ℕ) :
    roundHalfEven num den = num / den ∨ roundHalfEven num den = num / den + 1 := by
  simp only [roundHalfEven]
  split_ifs <;> simp

/-- Rounding finds the natural number that a quotient is nearest to. -/
theorem roundHalfEven_of_bounds {m : ℕ} (hd : 0 < den) (hlow : 2 * m * den ≤ 2 * num + den)
    (hhigh : 2 * num ≤ 2 * m * den + den)
    (hodd : m % 2 = 1 → 2 * m * den < 2 * num + den ∧ 2 * num < 2 * m * den + den) :
    roundHalfEven num den = m := by
  have hnum := Nat.div_add_mod num den
  have hrem := Nat.mod_lt num hd
  have hbelow : num / den ≤ m := by
    by_contra hgt
    have hmul := Nat.mul_le_mul_left den (Nat.lt_of_not_le hgt)
    have hsucc : den * (m + 1) = m * den + den := by ring
    rw [Nat.succ_eq_add_one, hsucc] at hmul
    rw [Nat.mul_assoc] at hhigh
    omega
  have habove : m ≤ num / den + 1 := by
    by_contra hgt
    have hmul := Nat.mul_le_mul_left den (Nat.lt_of_not_le hgt)
    have hsucc : den * (num / den + 1 + 1) = den * (num / den) + 2 * den := by ring
    have hcomm : den * m = m * den := Nat.mul_comm den m
    rw [Nat.succ_eq_add_one, hsucc, hcomm] at hmul
    rw [Nat.mul_assoc] at hlow
    omega
  rcases Nat.le_iff_lt_or_eq.mp hbelow with hlt | heq
  · obtain rfl : m = num / den + 1 := by omega
    have hmul : 2 * (num / den + 1) * den = 2 * (den * (num / den)) + 2 * den := by ring
    rw [hmul] at hlow hodd
    simp only [roundHalfEven]
    split_ifs <;> omega
  · have hmul : 2 * m * den = 2 * (den * (num / den)) := by rw [heq]; ring
    rw [hmul] at hhigh hodd
    simp only [roundHalfEven]
    split_ifs <;> omega

/-- Rounding gives the nearest integer, and the even one of two. -/
theorem roundHalfEven_of_nearest {m : ℕ} (hd : 0 < den) (h : Nearest m ((num : ℚ) / den)) :
    roundHalfEven num den = m := by
  have hden : (0 : ℚ) < den := by exact_mod_cast hd
  have hends := h.le_and_le
  rw [le_div_iff₀ hden, div_le_iff₀ hden] at hends
  have hlow : (2 * m * den : ℚ) ≤ 2 * num + den := by linarith [hends.1]
  have hhigh : (2 * num : ℚ) ≤ 2 * m * den + den := by linarith [hends.2]
  refine roundHalfEven_of_bounds hd (by exact_mod_cast hlow) (by exact_mod_cast hhigh) ?_
  intro hodd
  unfold Nearest Between at h
  rw [if_neg (by omega), lt_div_iff₀ hden, div_lt_iff₀ hden] at h
  have hlow : (2 * m * den : ℚ) < 2 * num + den := by linarith [h.1]
  have hhigh : (2 * num : ℚ) < 2 * m * den + den := by linarith [h.2]
  exact ⟨by exact_mod_cast hlow, by exact_mod_cast hhigh⟩

end RoundHalfEven

section Logarithm

variable {num den : ℕ}

/-- The power of two with the logarithm of a number does not exceed it. -/
theorem two_pow_log2_le (hn : 0 < num) : (2 : ℚ) ^ num.log2 ≤ num := by
  exact_mod_cast Nat.log2_self_le hn.ne'

/-- The next power of two behind the logarithm of a number exceeds it. -/
theorem lt_two_pow_log2 (num : ℕ) : (num : ℚ) < 2 ^ (num.log2 + 1) := by
  exact_mod_cast Nat.lt_log2_self

/-- A quotient of the scaled numbers is a scaled quotient. -/
theorem scaled_ratio (num den : ℕ) (p : ℤ) :
    ((num * 2 ^ (-p).toNat : ℕ) : ℚ) / ((den * 2 ^ p.toNat : ℕ) : ℚ) = num / den / 2 ^ p := by
  rw [zpow_eq_div two_ne_zero p]
  push_cast
  field_simp

/-- A ratio that is scaled by a power of two is rounded on natural numbers. -/
theorem roundHalfEven_scaled {m : ℕ} {p : ℤ} (hd : 0 < den)
    (h : Nearest m ((num : ℚ) / den / 2 ^ p)) :
    roundHalfEven (num * 2 ^ (-p).toNat) (den * 2 ^ p.toNat) = m := by
  apply roundHalfEven_of_nearest (by positivity)
  rw [scaled_ratio]
  exact h

/-- The power of two that is found is the greatest one up to the quotient. -/
theorem floorLog2_bounds (hn : 0 < num) (hd : 0 < den) :
    (2 : ℚ) ^ floorLog2 num den ≤ num / den ∧ (num : ℚ) / den < 2 ^ (floorLog2 num den + 1) := by
  have hden : (0 : ℚ) < den := by exact_mod_cast hd
  have hnumlow := two_pow_log2_le hn
  have hnumhigh := lt_two_pow_log2 num
  have hdenlow := two_pow_log2_le hd
  have hdenhigh := lt_two_pow_log2 den
  let guess : ℤ := (num.log2 : ℤ) - den.log2
  -- The numbers of bits determine the power up to one.
  have hlow : (2 : ℚ) ^ (guess - 1) ≤ num / den := by
    have hpow : (2 : ℚ) ^ (guess - 1) = 2 ^ num.log2 / 2 ^ (den.log2 + 1) := by
      rw [← zpow_natCast, ← zpow_natCast, ← zpow_sub₀ two_ne_zero]
      congr 1
      push_cast
      ring
    rw [hpow, div_le_div_iff₀ (by positivity) hden]
    exact mul_le_mul hnumlow hdenhigh.le hden.le (by positivity)
  have hhigh : (num : ℚ) / den < 2 ^ (guess + 1) := by
    have hpow : (2 : ℚ) ^ (guess + 1) = 2 ^ (num.log2 + 1) / 2 ^ den.log2 := by
      rw [← zpow_natCast, ← zpow_natCast, ← zpow_sub₀ two_ne_zero]
      congr 1
      push_cast
      ring
    rw [hpow, div_lt_div_iff₀ hden (by positivity)]
    exact mul_lt_mul hnumhigh hdenlow (by positivity) (by positivity)
  have htest : num * 2 ^ (-guess).toNat < den * 2 ^ guess.toNat ↔ (num : ℚ) / den < 2 ^ guess := by
    have hscaled := scaled_ratio num den guess
    have hpos : (0 : ℚ) < ((den * 2 ^ guess.toNat : ℕ) : ℚ) := by exact_mod_cast by positivity
    rw [← Nat.cast_lt (α := ℚ), ← div_lt_one hpos, hscaled, div_lt_one (by positivity)]
  simp only [floorLog2, Nat.pow_eq]
  by_cases hless : num * 2 ^ (-guess).toNat < den * 2 ^ guess.toNat
  · rw [if_pos hless, sub_add_cancel]
    exact ⟨hlow, htest.mp hless⟩
  · rw [if_neg hless]
    exact ⟨not_lt.mp fun h => hless (htest.mpr h), hhigh⟩

/-- A ratio between two neighbouring powers of two has the lower one for its exponent. -/
theorem floorLog2_eq {f : ℤ} (hn : 0 < num) (hd : 0 < den) (hlow : (2 : ℚ) ^ f ≤ num / den)
    (hhigh : (num : ℚ) / den < 2 ^ (f + 1)) : floorLog2 num den = f := by
  obtain ⟨hl, hh⟩ := floorLog2_bounds hn hd
  have hle : f < floorLog2 num den + 1 :=
    (zpow_lt_zpow_iff_right₀ one_lt_two).mp (hlow.trans_lt hh)
  have hge : floorLog2 num den < f + 1 :=
    (zpow_lt_zpow_iff_right₀ one_lt_two).mp (hl.trans_lt hhigh)
  omega

/-- A ratio below a power of two has a smaller exponent. -/
theorem floorLog2_lt {f : ℤ} (hn : 0 < num) (hd : 0 < den) (hhigh : (num : ℚ) / den < 2 ^ f) :
    floorLog2 num den < f :=
  (zpow_lt_zpow_iff_right₀ one_lt_two).mp ((floorLog2_bounds hn hd).1.trans_lt hhigh)

end Logarithm

section Fields

variable {x : Double}

/-- The fraction has 52 bits. -/
theorem fraction_lt (x : Double) : x.fraction < 2 ^ 52 := Nat.mod_lt _ (by decide)

/-- The significand has 53 bits. -/
theorem significand_lt (x : Double) : x.significand < 2 ^ 53 := by
  have hfraction := x.fraction_lt
  simp only [significand, Nat.pow_eq]
  split <;> omega

/-- The two fields make up the magnitude. -/
theorem exponent_fraction (x : Double) : 2 ^ 52 * x.exponent + x.fraction = x.magnitude.val :=
  Nat.div_add_mod _ _

/-- Only zero has no significant bit. -/
theorem significand_pos (h : 0 < x.magnitude.val) : 0 < x.significand := by
  have hsplit := x.exponent_fraction
  simp only [significand, Nat.pow_eq]
  split <;> omega

/-- The exponent field and the fraction field together count the significands. -/
theorem magnitude_eq (x : Double) :
    x.magnitude.val = (x.scale + 1074).toNat * 2 ^ 52 + x.significand := by
  have hsplit := x.exponent_fraction
  simp only [scale, significand, Nat.pow_eq]
  split <;> omega

/-- Beyond the least scale there is a hidden bit. -/
theorem significand_ge (h : -1074 < x.scale) : 2 ^ 52 ≤ x.significand := by
  unfold scale at h
  simp only [significand, Nat.pow_eq]
  split <;> omega

/-- No number has a finer scale than the smallest ones. -/
theorem scale_ge (x : Double) : -1074 ≤ x.scale := by
  unfold scale
  omega

/-- The lower end is at least half a place away, less only at a power of two. -/
theorem lowerQuarters_ge (x : Double) : 4 * x.significand - 2 ≤ x.lowerQuarters := by
  unfold lowerQuarters quarters
  split <;> omega

/-- The lower end of the interval that rounds to a number lies between zero and the number. -/
theorem lowerQuarters_pos (h : 0 < x.magnitude.val) :
    0 < x.lowerQuarters ∧ x.lowerQuarters < 4 * x.significand := by
  have hpos := significand_pos h
  unfold lowerQuarters quarters
  split <;> omega

/-- At a power of two beyond the least scale the lower end is a quarter of a place away. -/
theorem lowerQuarters_of_power (hscale : -1074 < x.scale) (h : x.significand = 2 ^ 52) :
    x.lowerQuarters = 2 ^ 54 - 1 := by
  have hexponent : 1 < x.exponent := by
    unfold scale at hscale
    omega
  have hfraction : x.fraction = 0 := by
    simp only [significand, Nat.pow_eq] at h
    split at h <;> omega
  unfold lowerQuarters quarters
  rw [if_pos ⟨hfraction, hexponent⟩, h]
  rfl

end Fields

section Ratio

variable {x : Double} {q : ℚ}

/-- The interval of a double in units of its last place. -/
theorem Rounds.inPlaces (h : x.Rounds q) :
    Between (x.significand % 2 = 0) (x.lowerQuarters / 4) (x.upperQuarters / 4)
      (q / 2 ^ x.scale) := by
  have hunit : (0 : ℚ) < (2 ^ x.scale)⁻¹ := by positivity
  have hscaled := (Between.mul_iff hunit).mpr h
  have hquarter : (2 : ℚ) ^ (x.scale - 2) * (2 ^ x.scale)⁻¹ = 1 / 4 := by
    rw [zpow_sub₀ two_ne_zero]
    field_simp
    norm_num
  rw [mul_assoc, mul_assoc, hquarter, mul_one_div, mul_one_div, ← div_eq_mul_inv] at hscaled
  exact hscaled

/-- What rounds to a positive magnitude is positive. -/
theorem Rounds.pos (hx : 0 < x.magnitude.val) (h : x.Rounds q) : 0 < q := by
  have hlow : (0 : ℚ) < x.lowerQuarters := by exact_mod_cast (lowerQuarters_pos hx).1
  have hunit : (0 : ℚ) < 2 ^ (x.scale - 2) := by positivity
  exact (mul_pos hlow hunit).trans_le h.le_and_le.1

/-- In units of the last place, what rounds to a double rounds to its significand. -/
theorem Rounds.nearest (h : x.Rounds q) : Nearest x.significand (q / 2 ^ x.scale) := by
  apply h.inPlaces.widen
  · have hlow : (4 * x.significand : ℚ) ≤ x.lowerQuarters + 2 := by
      have := x.lowerQuarters_ge
      exact_mod_cast (by omega : 4 * x.significand ≤ x.lowerQuarters + 2)
    linarith
  · unfold upperQuarters quarters
    push_cast
    linarith

/-- Below a power of two the places are half as large, and there it rounds up to the power. -/
theorem Rounds.nearest_power (h : x.Rounds q) (hscale : -1074 < x.scale)
    (hpower : x.significand = 2 ^ 52) (hbelow : q < 2 ^ 52 * 2 ^ x.scale) :
    Nearest (2 ^ 53) (q / 2 ^ (x.scale - 1)) := by
  have hlow := h.inPlaces.le_and_le.1
  have hhalf : q / 2 ^ (x.scale - 1) = q / 2 ^ x.scale * 2 := by
    rw [zpow_sub_one₀ two_ne_zero]
    field_simp
  have hhigh : q / 2 ^ x.scale < 2 ^ 52 := (div_lt_iff₀ (by positivity)).mpr hbelow
  rw [lowerQuarters_of_power hscale hpower] at hlow
  rw [hhalf, Nearest, Between, if_pos (by decide)]
  push_cast at hlow ⊢
  constructor <;> linarith

/-- What rounds to a number lies below the power of two behind its significand. -/
theorem Rounds.lt_power (h : x.Rounds q) : q < 2 ^ (x.scale + 53) := by
  have hhigh := h.inPlaces.le_and_le.2
  have hbound : (x.significand : ℚ) + 1 ≤ 2 ^ 53 := by exact_mod_cast x.significand_lt
  rw [div_le_iff₀ (by positivity)] at hhigh
  rw [zpow_add₀ two_ne_zero]
  have hunit : (0 : ℚ) < 2 ^ x.scale := by positivity
  have hupper : (x.upperQuarters : ℚ) / 4 = x.significand + 1 / 2 := by
    unfold upperQuarters quarters
    push_cast
    ring
  rw [hupper] at hhigh
  calc q ≤ (x.significand + 1 / 2) * 2 ^ x.scale := hhigh
    _ < 2 ^ 53 * 2 ^ x.scale := mul_lt_mul_of_pos_right (by linarith) hunit
    _ = 2 ^ x.scale * 2 ^ (53 : ℤ) := by rw [mul_comm]; rfl

/-- Only around a power of two does the interval of a double reach below its least significand. -/
theorem Rounds.eq_power (h : x.Rounds q) (hscale : -1074 < x.scale)
    (hbelow : q < 2 ^ 52 * 2 ^ x.scale) : x.significand = 2 ^ 52 := by
  have hge := significand_ge hscale
  by_contra hne
  have hlow := h.inPlaces.le_and_le.1
  have hhigh : q / 2 ^ x.scale < 2 ^ 52 := (div_lt_iff₀ (by positivity)).mpr hbelow
  have hquarters : (2 ^ 54 : ℚ) ≤ x.lowerQuarters := by
    have := x.lowerQuarters_ge
    exact_mod_cast (by omega : 2 ^ 54 ≤ x.lowerQuarters)
  linarith

variable {num den : ℕ}

/-- The last place around a quotient is that of the double it rounds to. -/
theorem Rounds.lastPlace_eq (hn : 0 < num) (hd : 0 < den) (h : x.Rounds ((num : ℚ) / den))
    (hplace : x.scale = -1074 ∨ (2 : ℚ) ^ 52 * 2 ^ x.scale ≤ num / den) :
    lastPlace num den = x.scale := by
  have hlt := floorLog2_lt hn hd h.lt_power
  unfold lastPlace
  rcases hplace with hleast | hge
  · omega
  · have hlow : (2 : ℚ) ^ (x.scale + 52) ≤ num / den := by
      rw [zpow_add₀ two_ne_zero, mul_comm]
      exact hge
    have hfloor := floorLog2_eq (f := x.scale + 52) hn hd hlow
      (by rw [add_assoc]; exact h.lt_power)
    have hscale := x.scale_ge
    omega

/-- Below a power of two it is half of it. -/
theorem Rounds.lastPlace_power (hn : 0 < num) (hd : 0 < den) (h : x.Rounds ((num : ℚ) / den))
    (hscale : -1074 < x.scale) (hbelow : (num : ℚ) / den < 2 ^ 52 * 2 ^ x.scale) :
    lastPlace num den = x.scale - 1 := by
  have hpower := h.eq_power hscale hbelow
  have hlow := h.inPlaces.le_and_le.1
  rw [lowerQuarters_of_power hscale hpower, le_div_iff₀ (by positivity)] at hlow
  push_cast at hlow
  have hunit : (0 : ℚ) < 2 ^ x.scale := by positivity
  have hfloor : floorLog2 num den = x.scale + 51 := by
    apply floorLog2_eq hn hd
    · rw [zpow_add₀ two_ne_zero]
      norm_num at hlow ⊢
      linarith
    · rw [add_assoc, zpow_add₀ two_ne_zero]
      norm_num at hbelow ⊢
      linarith
  unfold lastPlace
  omega

/-- A quotient in the interval of a double is rounded to its magnitude. -/
theorem Rounds.magnitude (hn : 0 < num) (hd : 0 < den)
    (hfinite : x.magnitude.val ≤ infiniteMagnitude) (h : x.Rounds ((num : ℚ) / den)) :
    magnitudeOfRatio num den = x.magnitude.val := by
  have hmagnitude := x.magnitude_eq
  have hscale := x.scale_ge
  simp only [magnitudeOfRatio, if_neg hn.ne', Nat.pow_eq]
  by_cases hplace : x.scale = -1074 ∨ (2 : ℚ) ^ 52 * 2 ^ x.scale ≤ num / den
  · have hround := roundHalfEven_scaled hd h.nearest
    simp only [h.lastPlace_eq hn hd hplace, hround]
    omega
  · simp only [not_or, not_le] at hplace
    have hbeyond : -1074 < x.scale := by omega
    have hpower := h.eq_power hbeyond hplace.2
    have hround := roundHalfEven_scaled hd (h.nearest_power hbeyond hpower hplace.2)
    simp only [h.lastPlace_power hn hd hbeyond hplace.2, hround]
    omega

/-- A quotient in the interval of a positive double is rounded to it. -/
theorem Rounds.ofRatio (hn : 0 < num) (hd : 0 < den) (hsign : x.negative = false)
    (hfinite : x.magnitude.val ≤ infiniteMagnitude) (h : x.Rounds ((num : ℚ) / den)) :
    Double.ofRatio num den = x := by
  obtain ⟨negative, magnitude, hm⟩ := x
  subst hsign
  simp only [Double.ofRatio, mk.injEq, Fin.mk.injEq, true_and]
  exact h.magnitude hn hd hfinite

end Ratio

section Grid

variable {x : Double}

/-- The units that a quarter of the last place and a grid step share. -/
theorem quarterStep_eq (x : Double) (e : ℤ) :
    (x.quarterStep e : ℚ) =
      2 ^ (x.scale - 2) * (2 ^ (2 - x.scale).toNat * 10 ^ (-e).toNat) := by
  rw [zpow_eq_div two_ne_zero, neg_sub, quarterStep, Nat.pow_eq, Nat.pow_eq]
  push_cast
  field_simp

/-- A grid step is its power of ten in the units that it shares with a quarter of the last place. -/
theorem gridStep_eq (x : Double) (e : ℤ) :
    (x.gridStep e : ℚ) = 10 ^ e * (2 ^ (2 - x.scale).toNat * 10 ^ (-e).toNat) := by
  rw [zpow_eq_div (by norm_num : (10 : ℚ) ≠ 0), gridStep, Nat.pow_eq, Nat.pow_eq]
  push_cast
  field_simp

/-- The test of a grid point is membership in the interval. -/
theorem roundsFrom_iff (x : Double) (e : ℤ) (k : ℕ) :
    x.roundsFrom e k = true ↔ x.Rounds (k * 10 ^ e) := by
  have hunit : (0 : ℚ) < 2 ^ (2 - x.scale).toNat * 10 ^ (-e).toNat := by positivity
  rw [Rounds, ← Between.mul_iff hunit, mul_assoc, mul_assoc, mul_assoc, ← quarterStep_eq,
    ← gridStep_eq]
  simp only [roundsFrom, Between]
  split
  · simp only [Bool.and_eq_true, decide_eq_true_eq]
    norm_cast
  · simp only [Bool.and_eq_true, decide_eq_true_eq]
    norm_cast

/-- A point that is found on a grid rounds to the double. -/
theorem onGrid?_rounds {e : ℤ} {k : ℕ} (h : x.onGrid? e = some k) : x.Rounds (k * 10 ^ e) := by
  rw [← roundsFrom_iff]
  simp only [onGrid?] at h
  split at h
  · rename_i hbelow habove
    obtain rfl := Option.some.inj h
    rcases roundHalfEven_cases (x.quarters * x.quarterStep e) (x.gridStep e) with heq | heq
    · rw [heq]; exact hbelow
    · rw [heq]; exact habove
  · rename_i hbelow _
    obtain rfl := Option.some.inj h
    exact hbelow
  · rename_i _ habove
    obtain rfl := Option.some.inj h
    exact habove
  · cases h

end Grid

end Double

/-- The number that a decimal denotes. -/
def Decimal.value (d : Decimal) : ℚ := d.coefficient * 10 ^ d.exponent

namespace Double

variable {x : Double}

/-- A double rounds to itself. -/
theorem rounds_self (hx : 0 < x.magnitude.val) : x.Rounds (x.significand * 2 ^ x.scale) := by
  have hfour : (2 : ℚ) ^ x.scale = 4 * 2 ^ (x.scale - 2) := by
    rw [zpow_sub₀ two_ne_zero]
    field_simp
    norm_num
  have hunit : (0 : ℚ) < 2 ^ (x.scale - 2) := by positivity
  rw [hfour, ← mul_assoc, Rounds, Between.mul_iff hunit]
  apply Between.of_lt
  · have hlow := (lowerQuarters_pos hx).2
    exact_mod_cast (by omega : x.lowerQuarters < x.significand * 4)
  · unfold upperQuarters quarters
    push_cast
    linarith

/-- The exact value of a double as a decimal. -/
theorem value_coarsest_zero (x : Double) (e : ℤ) :
    Decimal.value (x.coarsest 0 e) = x.significand * 2 ^ x.scale := by
  have hten : (10 : ℚ) ^ min 0 x.scale = 1 / (2 ^ (-x.scale).toNat * 5 ^ (-x.scale).toNat) := by
    have hexponent : min 0 x.scale = -((-x.scale).toNat : ℤ) := by omega
    rw [hexponent, zpow_neg, zpow_natCast, ← mul_pow, one_div]
    norm_num
  rw [Decimal.value, coarsest, hten, zpow_eq_div two_ne_zero x.scale]
  simp only [Nat.pow_eq]
  push_cast
  field_simp

/-- Whatever the number of grids, what is found rounds to the double. -/
theorem coarsest_rounds (hx : 0 < x.magnitude.val) (n : ℕ) (e : ℤ) :
    x.Rounds (x.coarsest n e).value := by
  induction n generalizing e with
  | zero =>
    rw [value_coarsest_zero]
    exact rounds_self hx
  | succ n ih =>
    rw [coarsest]
    split
    · rename_i k hk
      exact onGrid?_rounds hk
    · exact ih (e - 1)

/-- The shortest decimal of a positive double rounds to it. -/
theorem shortest_rounds (hx : 0 < x.magnitude.val) : x.Rounds x.shortest.value :=
  coarsest_rounds hx _ _

end Double

namespace Decimal

variable {x : Double} {d : Decimal}

/-- A decimal of positive value has a positive coefficient. -/
theorem coefficient_pos (h : 0 < d.value) : 0 < d.coefficient := by
  apply Nat.pos_of_ne_zero
  intro hzero
  simp [value, hzero] at h

/-- A decimal in the interval of a positive finite double is read as this double. -/
theorem toDouble_of_rounds (hsign : x.negative = false) (hx : 0 < x.magnitude.val)
    (hfinite : x.magnitude.val ≤ Double.infiniteMagnitude) (h : x.Rounds d.value) :
    d.toDouble = x := by
  have hpos := coefficient_pos (h.pos hx)
  have hvalue : ((d.coefficient * 10 ^ d.exponent.toNat : ℕ) : ℚ) /
      ((10 ^ (-d.exponent).toNat : ℕ) : ℚ) = d.value := by
    rw [value, zpow_eq_div (by norm_num : (10 : ℚ) ≠ 0)]
    push_cast
    ring
  rw [← hvalue] at h
  simp only [toDouble, Nat.pow_eq]
  exact h.ofRatio (by positivity) (by positivity) hsign hfinite

/-- Every decimal of the value of the shortest one is read back as the double. -/
theorem toDouble_of_value_eq (hsign : x.negative = false) (hx : 0 < x.magnitude.val)
    (hfinite : x.magnitude.val ≤ Double.infiniteMagnitude) (h : d.value = x.shortest.value) :
    d.toDouble = x := by
  apply toDouble_of_rounds hsign hx hfinite
  rw [h]
  exact Double.shortest_rounds hx

end Decimal

end Moonbridge
