import Moonbridge.Proofs.Number.Layout

/-!
# The shortest decimal

The shortest decimal of a double lies on the coarsest grid that has a point among the reals that
round to the double. So it does not end with a zero, and no decimal of fewer digits rounds to the
double. Digits that neither start nor end with a zero, and the place of the point before, among or
behind them, are determined by the number they write.
-/

namespace Moonbridge

/-- What stands between two points of an interval belongs to it. -/
theorem Between.convex {closed : Prop} [Decidable closed] {low high p q r : ℚ}
    (hp : Between closed low high p) (hr : Between closed low high r) (hpq : p ≤ q) (hqr : q ≤ r) :
    Between closed low high q := by
  by_cases hclosed : closed
  · simp only [Between, if_pos hclosed] at hp hr ⊢
    exact ⟨hp.1.trans hpq, hqr.trans hr.2⟩
  · simp only [Between, if_neg hclosed] at hp hr ⊢
    exact ⟨hp.1.trans_le hpq, hqr.trans_lt hr.2⟩

namespace Double

variable {x : Double} {e : ℤ}

/-- The grid of a power of ten has no point that rounds to a double. -/
def Missed (x : Double) (e : ℤ) : Prop := ∀ k : ℕ, ¬ x.Rounds (k * 10 ^ e)

section Grids

/-- The power of ten at which the search starts is above all that rounds to a double. -/
theorem Rounds.lt_gridStart {q : ℚ} (h : x.Rounds q) : q < 10 ^ (x.gridStart : ℤ) := by
  set num := x.upperQuarters * 2 ^ (x.scale - 2).toNat with hnum
  set den := 2 ^ (2 - x.scale).toNat with hden
  have hpos : 0 < den := by positivity
  have hstart : num / den < 10 ^ x.gridStart :=
    (Nat.length_toDigits_le_iff (by decide) Nat.length_toDigits_pos).mp le_rfl
  have hfloor : num < 10 ^ x.gridStart * den := (Nat.div_lt_iff_lt_mul hpos).mp hstart
  have hupper : (x.upperQuarters : ℚ) * 2 ^ (x.scale - 2) = num / den := by
    rw [zpow_eq_div two_ne_zero, neg_sub, hnum, hden]
    push_cast
    ring
  calc q ≤ x.upperQuarters * 2 ^ (x.scale - 2) := h.le_and_le.2
    _ = num / den := hupper
    _ < 10 ^ x.gridStart := by
      rw [div_lt_iff₀ (by exact_mod_cast hpos)]
      exact_mod_cast hfloor
    _ = 10 ^ (x.gridStart : ℤ) := (zpow_natCast _ _).symm

/-- The grid that the search starts from, and every coarser one, is missed. -/
theorem missed_gridStart (hx : 0 < x.magnitude.val) (he : x.gridStart ≤ e) : x.Missed e := by
  intro k h
  have hk : k ≠ 0 := by
    rintro rfl
    simpa using h.pos hx
  have hone : (1 : ℚ) ≤ k := by exact_mod_cast Nat.one_le_iff_ne_zero.mpr hk
  have hpower : (10 : ℚ) ^ (x.gridStart : ℤ) ≤ 10 ^ e := zpow_le_zpow_right₀ (by norm_num) he
  have hpoint : (10 : ℚ) ^ e ≤ k * 10 ^ e := le_mul_of_one_le_left (by positivity) hone
  exact absurd h.lt_gridStart (not_lt.mpr (hpower.trans hpoint))

/-- The point of a grid below a double and the next one have the double between them. -/
theorem grid_bounds (x : Double) (e : ℤ) :
    (x.quarters * x.quarterStep e / x.gridStep e : ℕ) * (10 : ℚ) ^ e ≤
        x.significand * 2 ^ x.scale ∧
      x.significand * 2 ^ x.scale <
        ((x.quarters * x.quarterStep e / x.gridStep e + 1 : ℕ) : ℚ) * 10 ^ e := by
  obtain ⟨unit, hpos, hgrid, hquarter⟩ : ∃ unit : ℚ, 0 < unit ∧
      (x.gridStep e : ℚ) = 10 ^ e * unit ∧ (x.quarterStep e : ℚ) = 2 ^ (x.scale - 2) * unit :=
    ⟨_, by positivity, gridStep_eq x e, quarterStep_eq x e⟩
  set below := x.quarters * x.quarterStep e / x.gridStep e with hbelow
  have hstep : (0 : ℚ) < x.gridStep e := by
    rw [hgrid]
    positivity
  have hvalue : ((x.quarters * x.quarterStep e : ℕ) : ℚ) = x.significand * 2 ^ x.scale * unit := by
    have hfour : (2 : ℚ) ^ x.scale = 4 * 2 ^ (x.scale - 2) := by
      rw [zpow_sub₀ two_ne_zero]
      field_simp
      norm_num
    rw [Nat.cast_mul, hquarter, quarters, hfour]
    push_cast
    ring
  have hlow : ((below * x.gridStep e : ℕ) : ℚ) ≤ (x.quarters * x.quarterStep e : ℕ) := by
    exact_mod_cast Nat.div_mul_le_self _ _
  have hhigh : ((x.quarters * x.quarterStep e : ℕ) : ℚ) < ((below + 1) * x.gridStep e : ℕ) := by
    exact_mod_cast Nat.lt_mul_of_div_lt (Nat.lt_succ_self _) (by exact_mod_cast hstep)
  rw [hvalue, Nat.cast_mul, hgrid, ← mul_assoc] at hlow hhigh
  exact ⟨le_of_mul_le_mul_right hlow hpos, lt_of_mul_lt_mul_right hhigh hpos.le⟩

/-- A grid on which nothing is found has no point that rounds to the double: such a point would
have one of the two around the double between the double and itself. -/
theorem missed_of_onGrid? (hx : 0 < x.magnitude.val) (h : x.onGrid? e = none) : x.Missed e := by
  set below := x.quarters * x.quarterStep e / x.gridStep e with hbelow
  obtain ⟨hlow, hhigh⟩ := x.grid_bounds e
  rw [← hbelow] at hlow hhigh
  have hmisses : x.roundsFrom e below = false ∧ x.roundsFrom e (below + 1) = false := by
    simp only [onGrid?] at h
    split at h
    · cases h
    · cases h
    · cases h
    · exact ⟨‹_›, ‹_›⟩
  intro k hk
  rcases Nat.lt_or_ge below k with hlt | hge
  · have hpoint : ((below + 1 : ℕ) : ℚ) * 10 ^ e ≤ k * 10 ^ e :=
      mul_le_mul_of_nonneg_right (by exact_mod_cast hlt) (by positivity)
    have hnext := (roundsFrom_iff x e (below + 1)).mpr
      ((rounds_self hx).convex hk hhigh.le hpoint)
    rw [hmisses.2] at hnext
    cases hnext
  · have hpoint : (k : ℚ) * 10 ^ e ≤ below * 10 ^ e :=
      mul_le_mul_of_nonneg_right (by exact_mod_cast hge) (by positivity)
    have hprevious := (roundsFrom_iff x e below).mpr (hk.convex (rounds_self hx) hpoint hlow)
    rw [hmisses.1] at hprevious
    cases hprevious

/-- The search passes over grids without a point. It ends at the grid of the double itself. -/
theorem missed_of_coarsest (hx : 0 < x.magnitude.val) {n : ℕ} {start : ℤ}
    (hend : start - n = min 0 x.scale) (hmissed : ∀ e > start, x.Missed e) :
    ∀ e > (x.coarsest n start).exponent, x.Missed e := by
  induction n generalizing start with
  | zero =>
    have hexponent : (x.coarsest 0 start).exponent = start := by
      rw [coarsest]
      simpa using hend.symm
    rwa [hexponent]
  | succ n ih =>
    rw [coarsest]
    split
    · exact hmissed
    · rename_i hnone
      refine ih (by push_cast at hend; omega) fun e he => ?_
      rcases (by omega : e = start ∨ start < e) with rfl | hlt
      · exact missed_of_onGrid? hx hnone
      · exact hmissed e hlt

/-- No coarser grid than that of the shortest decimal has a point that rounds to the double. -/
theorem missed_of_shortest (hx : 0 < x.magnitude.val) (he : x.shortest.exponent < e) :
    x.Missed e := by
  refine missed_of_coarsest hx ?_ (fun e he => missed_gridStart hx (Int.le_of_lt he)) e he
  push_cast
  omega

end Grids

/-- The shortest decimal does not end with a zero. -/
theorem shortest_mod_ten (hx : 0 < x.magnitude.val) : x.shortest.coefficient % 10 ≠ 0 := by
  intro hzero
  obtain ⟨k, hk⟩ := Nat.dvd_of_mod_eq_zero hzero
  have hrounds := shortest_rounds hx
  have hvalue : x.shortest.value = k * 10 ^ (x.shortest.exponent + 1) := by
    rw [Decimal.value, hk, zpow_add_one₀ (by norm_num)]
    push_cast
    ring
  rw [hvalue] at hrounds
  exact missed_of_shortest hx (lt_add_one _) k hrounds

/-- No decimal of fewer digits rounds to the double. A shorter one would have a power of ten between
itself and the shortest one, and this power would stand on a coarser grid. -/
theorem shortest_minimal (hx : 0 < x.magnitude.val) {d : Decimal} (h : x.Rounds d.value) :
    x.shortest.digits.length ≤ d.digits.length := by
  by_contra hlonger
  have hrounds := shortest_rounds hx
  have hcoefficient := Decimal.coefficient_pos (h.pos hx)
  set length := x.shortest.digits.length with hlength
  have hfewer : d.digits.length ≤ length - 1 := by omega
  have hone : 0 < d.digits.length := Nat.length_toDigits_pos
  have hsmall : d.coefficient < 10 ^ (length - 1) :=
    (Nat.length_toDigits_le_iff (by decide) (by omega)).mp hfewer
  have hlarge : 10 ^ (length - 1) ≤ x.shortest.coefficient := by
    rw [← Nat.not_lt, ← Nat.length_toDigits_le_iff (by decide) (by omega)]
    change ¬ x.shortest.digits.length ≤ length - 1
    omega
  have hexponent : d.exponent ≤ x.shortest.exponent := by
    by_contra hcoarser
    exact missed_of_shortest hx (not_le.mp hcoarser) d.coefficient h
  have hlow : d.value ≤ 10 ^ (length - 1) * 10 ^ x.shortest.exponent := by
    have hsmall' : (d.coefficient : ℚ) ≤ 10 ^ (length - 1) := by exact_mod_cast hsmall.le
    have hpower : (10 : ℚ) ^ d.exponent ≤ 10 ^ x.shortest.exponent :=
      zpow_le_zpow_right₀ (by norm_num) hexponent
    exact mul_le_mul hsmall' hpower (by positivity) (by positivity)
  have hhigh : (10 : ℚ) ^ (length - 1) * 10 ^ x.shortest.exponent ≤ x.shortest.value := by
    have hlarge' : (10 : ℚ) ^ (length - 1) ≤ x.shortest.coefficient := by exact_mod_cast hlarge
    exact mul_le_mul_of_nonneg_right hlarge' (by positivity)
  have hpoint : (10 : ℚ) ^ (length - 1) * 10 ^ x.shortest.exponent =
      (10 ^ (length - 2) : ℕ) * 10 ^ (x.shortest.exponent + 1) := by
    have hsplit : length - 1 = length - 2 + 1 := by omega
    rw [hsplit, pow_succ, zpow_add_one₀ (by norm_num)]
    push_cast
    ring
  have hmissed := missed_of_shortest hx (lt_add_one x.shortest.exponent) (10 ^ (length - 2))
  rw [← hpoint] at hmissed
  exact hmissed (h.convex hrounds hlow hhigh)

end Double

namespace Numeral

variable {digits digits' : List Char} {point point' : ℤ}

/-- Digits that neither start nor end with a zero. -/
structure Significant (digits : List Char) : Prop extends Digits digits where
  head : digits.head? ≠ some '0'
  last : digits.getLast? ≠ some '0'

/-- The number that digits write whose point stands at a place counted from the first of them:
`0.digits * 10 ^ point`. -/
def placed (digits : List Char) (point : ℤ) : ℚ :=
  Decimal.ofDigits digits * 10 ^ (point - digits.length)

/-- The digits of a decimal at its point are worth what the decimal is. -/
theorem placed_digits (d : Decimal) : placed d.digits d.point = d.value := by
  rw [placed, Decimal.value, ofDigits_digits, Decimal.point]
  simp

section Unique

/-- One more digit at the end multiplies the value by ten. -/
theorem ofDigits_concat (digits : List Char) (c : Char) :
    Decimal.ofDigits (digits ++ [c]) = 10 * Decimal.ofDigits digits + Decimal.digitValue c := by
  simp [Decimal.ofDigits]

/-- A digit is told by its value. -/
theorem digitChar_digitValue {c : Char} (h : c.isDigit = true) :
    Decimal.digitValue c < 10 ∧ (Decimal.digitValue c).digitChar = c := by
  simp only [Char.isDigit, Bool.and_eq_true, decide_eq_true_eq, UInt32.le_iff_toNat_le,
    ge_iff_le] at h
  have hlow : 48 ≤ c.toNat := h.1
  have hhigh : c.toNat ≤ 57 := h.2
  have hvalue : Decimal.digitValue c = c.toNat - 48 := rfl
  have hchar : ∀ n < 10, n.digitChar.toNat = n + 48 := by decide
  refine ⟨by omega, Char.toNat_inj.mp ?_⟩
  rw [hchar _ (by omega)]
  omega

/-- Digits that do not start with a zero are the numeral of the number they write. -/
theorem Digits.toDigits_ofDigits (h : Digits digits) (hhead : digits.head? ≠ some '0') :
    Nat.toDigits 10 (Decimal.ofDigits digits) = digits ∧ 0 < Decimal.ofDigits digits := by
  induction digits using List.reverseRecOn with
  | nil => exact absurd rfl h.nonempty
  | append_singleton others c ih =>
    obtain ⟨hlt, hchar⟩ := digitChar_digitValue (h.isDigit c (by simp))
    rw [ofDigits_concat]
    rcases eq_or_ne others [] with rfl | hne
    · have hvalue : Decimal.digitValue c ≠ 0 := by
        intro hzero
        rw [hzero] at hchar
        exact hhead (by simp [← hchar])
      have hnil : Decimal.ofDigits [] = 0 := rfl
      rw [hnil, Nat.mul_zero, Nat.zero_add, Nat.toDigits_of_lt_base hlt, hchar]
      exact ⟨rfl, Nat.pos_of_ne_zero hvalue⟩
    · have hothers : Digits others := ⟨hne, fun d hd => h.isDigit d (by simp [hd])⟩
      obtain ⟨hdigits, hpos⟩ := ih hothers (by rwa [List.head?_append_of_ne_nil _ hne] at hhead)
      refine ⟨?_, by omega⟩
      rw [Nat.toDigits_of_base_le (by decide) (by omega), Nat.mul_add_div (by decide),
        Nat.div_eq_of_lt hlt, Nat.add_zero, hdigits, Nat.mul_add_mod, Nat.mod_eq_of_lt hlt, hchar]

/-- Digits that do not end with a zero write a number that does not. -/
theorem Significant.mod_ten (h : Significant digits) : Decimal.ofDigits digits % 10 ≠ 0 := by
  obtain ⟨others, c, rfl⟩ := (List.eq_nil_or_concat' digits).resolve_left h.nonempty
  obtain ⟨hlt, hchar⟩ := digitChar_digitValue (h.isDigit c (by simp))
  rw [ofDigits_concat, Nat.mul_add_mod, Nat.mod_eq_of_lt hlt]
  intro hzero
  rw [hzero] at hchar
  exact h.last (by simp [← hchar])

/-- Of numbers that do not end with a zero, one on a coarser grid is not on a finer one. -/
theorem exponent_le_of_eq {a b : ℕ} {i j : ℤ} (ha : a % 10 ≠ 0)
    (h : (a : ℚ) * 10 ^ i = b * 10 ^ j) : j ≤ i := by
  by_contra hlt
  obtain ⟨k, hk⟩ : ∃ k : ℕ, j = i + (k + 1 : ℕ) := ⟨(j - i - 1).toNat, by omega⟩
  have hvalue : (a : ℚ) = b * 10 ^ (k + 1) := by
    have hpower : (10 : ℚ) ^ i ≠ 0 := by positivity
    rw [hk, zpow_add₀ (by norm_num), zpow_natCast, mul_left_comm, mul_comm] at h
    exact mul_left_cancel₀ hpower h
  have hnat : a = 10 * (b * 10 ^ k) := by
    have hcast : (a : ℚ) = (10 * (b * 10 ^ k) : ℕ) := by
      rw [hvalue]
      push_cast
      ring
    exact_mod_cast hcast
  exact ha (by rw [hnat, Nat.mul_mod_right])

/-- Significant digits and the place of the point are determined by the number they write. -/
theorem Significant.unique (h : Significant digits) (h' : Significant digits')
    (heq : placed digits point = placed digits' point') : digits = digits' ∧ point = point' := by
  unfold placed at heq
  have hexponent : point - digits.length = point' - digits'.length :=
    le_antisymm (exponent_le_of_eq h'.mod_ten heq.symm) (exponent_le_of_eq h.mod_ten heq)
  have hcoefficient : Decimal.ofDigits digits = Decimal.ofDigits digits' := by
    rw [hexponent] at heq
    have hpower : (10 : ℚ) ^ (point' - digits'.length) ≠ 0 := by positivity
    exact_mod_cast mul_right_cancel₀ hpower heq
  have hdigits : digits = digits' := by
    rw [← (h.toDigits_ofDigits h.head).1, hcoefficient, (h'.toDigits_ofDigits h'.head).1]
  subst hdigits
  exact ⟨rfl, by omega⟩

end Unique

/-- The digits of the shortest decimal are significant. -/
theorem significant_shortest {x : Double} (hx : 0 < x.magnitude.val) :
    Significant x.shortest.digits := by
  have hpos := Decimal.coefficient_pos ((Double.shortest_rounds hx).pos hx)
  refine { digits_digits x.shortest with head := Text.head_toDigits_ne hpos, last := ?_ }
  have hmod := Double.shortest_mod_ten hx
  have hlast : x.shortest.digits.getLast? = some (x.shortest.coefficient % 10).digitChar := by
    rw [Decimal.digits, Nat.toDigits_eq_if (by decide)]
    split
    · rename_i hlt
      simp [Nat.mod_eq_of_lt hlt]
    · simp
  have hall : ∀ n < 10, n ≠ 0 → n.digitChar ≠ '0' := by decide
  rw [hlast]
  simpa using hall _ (Nat.mod_lt _ (by decide)) hmod

end Numeral

end Moonbridge
