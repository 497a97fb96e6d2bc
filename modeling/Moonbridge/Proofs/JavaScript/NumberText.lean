import Moonbridge.Proofs.JavaScript.Recounted
import Moonbridge.Proofs.Json.Printed

/-!
# The texts of numbers

A number has two texts, one in a dump and one in code. Both write the digits of its shortest
decimal, and so the same rational. The dump keeps a fraction or an exponent of at least two digits,
and the code lays the digits out as ECMAScript does when it turns a number into a string. Numbers
other than zero can be told by their texts.

What is counted on the text in a dump are the digits and the place of the point that determine the
number. So the text in code can be made from the dump alone, zeros and infinities included.
-/

namespace Moonbridge

open Numeral

namespace Numeral

section Denotation

/-- A number as it is written determines its parts, and so the decimal that they make up. -/
theorem Parts.decimal_unique {p p' : Parts} (h : p.text = p'.text) : p.decimal = p'.decimal := by
  have hends : JavaScript.Ends [] := by simp [JavaScript.Ends]
  obtain ⟨hstops, hfraction⟩ := JavaScript.readFraction_parts p.isFraction p.isExponent hends
  obtain ⟨hstops', hfraction'⟩ := JavaScript.readFraction_parts p'.isFraction p'.isExponent hends
  have hexponent := JavaScript.readExponent_parts p.isExponent hends
  have hexponent' := JavaScript.readExponent_parts p'.isExponent hends
  have htext : p.whole ++ (p.fraction ++ (p.exponent ++ [])) =
      p'.whole ++ (p'.fraction ++ (p'.exponent ++ [])) := by
    simpa [Parts.text] using h
  have hwhole : p.whole = p'.whole := by
    rw [← Text.takeWhile_run p.isWhole.isDigit hstops, htext,
      Text.takeWhile_run p'.isWhole.isDigit hstops']
  have hrest : p.fraction ++ (p.exponent ++ []) = p'.fraction ++ (p'.exponent ++ []) := by
    rw [hwhole] at htext
    exact List.append_cancel_left htext
  rw [hrest, hfraction'] at hfraction
  obtain ⟨hdigits, hpower⟩ := Prod.mk.inj hfraction
  rw [← hpower, hexponent'] at hexponent
  have hvalue : p'.power = p.power := (Prod.mk.inj (Option.some.inj hexponent)).1
  rw [Parts.decimal, Parts.decimal, hwhole, hdigits, hvalue]

/-- A number as it is written, with or without a minus sign, and the rational it denotes. -/
inductive Denotes : List Char → ℚ → Prop
  | plain (p : Parts) : Denotes p.text p.decimal.value
  | negated (p : Parts) : Denotes ('-' :: p.text) (-p.decimal.value)

/-- A text denotes one rational. -/
theorem Denotes.unique {text : List Char} {q q' : ℚ} (h : Denotes text q) (h' : Denotes text q') :
    q = q' := by
  have hsign : ∀ p p' : Parts, p.text ≠ '-' :: p'.text := by
    intro p p' heq
    obtain ⟨c, tail, htext, hc⟩ := p.head_text
    rw [htext] at heq
    obtain ⟨rfl, -⟩ := List.cons.inj heq
    cases hc
  generalize htext : text = text' at h'
  cases h with
  | plain p =>
    cases h' with
    | plain p' => rw [Parts.decimal_unique htext]
    | negated p' => exact absurd htext (hsign p p')
  | negated p =>
    cases h' with
    | plain p' => exact absurd htext.symm (hsign p' p)
    | negated p' => rw [Parts.decimal_unique (List.cons.inj htext).2]

/-- The sign of a number. -/
def sign (negative : Bool) : List Char := if negative then ['-'] else []

/-- The rational with the given sign and magnitude. -/
def signed (negative : Bool) (magnitude : ℚ) : ℚ := if negative then -magnitude else magnitude

/-- A written number behind a sign denotes its value with that sign. -/
theorem Parts.denotes (p : Parts) (negative : Bool) :
    Denotes (sign negative ++ p.text) (signed negative p.decimal.value) := by
  cases negative with
  | false => exact .plain p
  | true => exact .negated p

end Denotation

section Forms

/-- The texts of numbers that have a fraction or an exponent: digits on both sides of a point, or
one digit, perhaps with a fraction, and a signed exponent of at least two digits. -/
inductive FullForm : List Char → Prop
  | positional {whole fraction : List Char} (isWhole : Digits whole)
      (isFraction : Digits fraction) : FullForm (whole ++ '.' :: fraction)
  | scientific {first mark : Char} {fraction digits power : List Char}
      (isDigit : first.isDigit = true) (isFraction : Fraction fraction digits)
      (isMark : mark ∈ ['+', '-']) (isPower : Digits power) (width : 2 ≤ power.length) :
      FullForm (first :: (fraction ++ 'e' :: mark :: power))

/-- In the exponent form of a dump the exponent has at least two digits. -/
theorem fullForm_scientific {digits : List Char} (h : Digits digits) (point : ℤ) :
    FullForm (Json.numberFormat.scientific digits point) := by
  have hmark : (if 0 ≤ point - 1 then '+' else '-') ∈ ['+', '-'] := by
    split <;> simp
  have hpower : Digits (Text.zeroPadded 10 2 (point - 1).natAbs) := digits_zeroPadded _ _
  have hwidth := Text.le_length_zeroPadded 10 2 (point - 1).natAbs
  obtain ⟨first, others, rfl⟩ := List.exists_cons_of_ne_nil h.nonempty
  have hfirst := h.isDigit first List.mem_cons_self
  cases others with
  | nil => exact .scientific hfirst .none hmark hpower hwidth
  | cons second others =>
    have hfraction : Digits (second :: others) :=
      ⟨by simp, fun c hc => h.isDigit c (List.mem_cons_of_mem _ hc)⟩
    exact .scientific hfirst (.point hfraction) hmark hpower hwidth

/-- In a dump every number has a fraction or an exponent. -/
theorem fullForm_layout {digits : List Char} (h : Digits digits) (point : ℤ) :
    FullForm (Json.numberFormat.layout digits point) := by
  have hzero : Digits ['0'] := digits_toDigits 0
  unfold NumberFormat.layout
  split
  · by_cases hwhole : (digits.length : ℤ) ≤ point
    · rw [if_pos hwhole]
      exact .positional (h.append (isDigit_replicate _)) hzero
    · rw [if_neg hwhole]
      by_cases hpoint : 0 < point
      · rw [if_pos hpoint]
        refine .positional ⟨?_, fun c hc => h.isDigit c (List.mem_of_mem_take hc)⟩
          ⟨?_, fun c hc => h.isDigit c (List.mem_of_mem_drop hc)⟩
        · simp only [ne_eq, List.take_eq_nil_iff, h.nonempty, or_false]
          omega
        · simp only [ne_eq, List.drop_eq_nil_iff]
          omega
      · rw [if_neg hpoint]
        refine .positional hzero ⟨by simp [h.nonempty], fun c hc => ?_⟩
        rcases List.mem_append.mp hc with hc | hc
        · exact isDigit_replicate _ c hc
        · exact h.isDigit c hc
  · exact fullForm_scientific h point

end Forms

end Numeral

namespace JavaScript

/-- The text of a number as ECMAScript lays out its digits, given the place of its point: zeros fill
up a whole number, or the point stands among the digits, or zeros stand in front of them; numbers
that are too large or too small for that have one digit in front of the point and an exponent. -/
def numberToString (digits : List Char) (point : ℤ) : List Char :=
  if digits.length ≤ point ∧ point ≤ 21 then
    digits ++ List.replicate (point - digits.length).toNat '0'
  else if 0 < point ∧ point ≤ 21 then
    digits.take point.toNat ++ '.' :: digits.drop point.toNat
  else if -6 < point ∧ point ≤ 0 then
    '0' :: '.' :: List.replicate (-point).toNat '0' ++ digits
  else
    digits.take 1 ++ (if digits.length = 1 then [] else '.' :: digits.drop 1) ++
      'e' :: (if 0 < point then '+' else '-') :: Nat.toDigits 10 (point - 1).natAbs

section Layouts

/-- The exponent form has one digit in front of the point, and an exponent without zeros in front
of it. -/
theorem scientific_eq {digits : List Char} (hne : digits ≠ []) (point : ℤ) :
    numberFormat.scientific digits point =
      digits.take 1 ++ (if digits.length = 1 then [] else '.' :: digits.drop 1) ++
        'e' :: (if 0 < point then '+' else '-') :: Nat.toDigits 10 (point - 1).natAbs := by
  have hsign : 0 ≤ point - 1 ↔ 0 < point := by omega
  have hpower : Text.zeroPadded 10 numberFormat.exponentWidth (point - 1).natAbs =
      Nat.toDigits 10 (point - 1).natAbs := by
    have hdigits : 1 ≤ (Nat.toDigits 10 (point - 1).natAbs).length := Nat.length_toDigits_pos
    simp [Text.zeroPadded, numberFormat, Nat.sub_eq_zero_of_le hdigits]
  simp only [NumberFormat.scientific, hpower, hsign]
  obtain ⟨first, others, rfl⟩ := List.exists_cons_of_ne_nil hne
  cases others with
  | nil => rfl
  | cons second others => simp

/-- Code lays out the digits of a number as ECMAScript does. -/
theorem layout_eq_numberToString {digits : List Char} (hne : digits ≠ []) (point : ℤ) :
    numberFormat.layout digits point = numberToString digits point := by
  have hlength : 0 < digits.length := List.length_pos_of_ne_nil hne
  have hleast : numberFormat.leastPoint = -6 := rfl
  have hgreatest : numberFormat.greatestPoint = 21 := rfl
  unfold NumberFormat.layout numberToString
  by_cases hrange : numberFormat.leastPoint < point ∧ point ≤ numberFormat.greatestPoint
  · rw [if_pos hrange]
    by_cases hwhole : (digits.length : ℤ) ≤ point
    · have hzeros : (point - digits.length).toNat = point.toNat - digits.length := by omega
      rw [if_pos hwhole, if_pos ⟨hwhole, hrange.2⟩, hzeros]
      exact List.append_nil _
    · have hnot : ¬ ((digits.length : ℤ) ≤ point ∧ point ≤ 21) := fun h => hwhole h.1
      rw [if_neg hwhole, if_neg hnot]
      by_cases hpoint : 0 < point
      · rw [if_pos hpoint, if_pos ⟨hpoint, hrange.2⟩]
      · have hinside : ¬ (0 < point ∧ point ≤ 21) := fun h => hpoint h.1
        have hsmall : -6 < point ∧ point ≤ 0 := by omega
        rw [if_neg hpoint, if_neg hinside, if_pos hsmall]
  · have hwhole : ¬ ((digits.length : ℤ) ≤ point ∧ point ≤ 21) := by omega
    have hinside : ¬ (0 < point ∧ point ≤ 21) := by omega
    have hsmall : ¬ (-6 < point ∧ point ≤ 0) := by omega
    rw [if_neg hrange, if_neg hwhole, if_neg hinside, if_neg hsmall]
    exact scientific_eq hne point

/-- A number other than zero has a positive magnitude. -/
theorem magnitude_pos {x : Double} (hzero : x.isZero = false) : 0 < x.magnitude.val := by
  simp only [Double.isZero, beq_eq_false_iff_ne, ne_eq] at hzero
  omega

/-- A number other than zero is written behind its sign. -/
theorem toList_write {f : NumberFormat} {x : Double} (hfinite : x.isFinite = true)
    (hzero : x.isZero = false) : (f.write x).toList =
      sign x.negative ++ f.layout x.shortest.digits x.shortest.point := by
  rw [NumberFormat.write_of_isFinite hfinite, hzero, if_neg Bool.false_ne_true,
    String.toList_ofList, sign]

/-- However a number is laid out, its text denotes its shortest decimal. -/
theorem denotes_write {f : NumberFormat} {x : Double} (hfinite : x.isFinite = true)
    (hzero : x.isZero = false) {n : ℕ}
    (hending : Fraction f.wholeEnding (List.replicate n '0')) (q : ℚ) :
    Denotes (f.write x).toList q ↔ q = signed x.negative x.shortest.value := by
  obtain ⟨p, htext, hvalue, -⟩ := lays_shortest (magnitude_pos hzero) hending
  have hdenotes := p.denotes x.negative
  rw [htext, hvalue, ← toList_write hfinite hzero] at hdenotes
  constructor
  · exact fun h => h.unique hdenotes
  · rintro rfl
    exact hdenotes

end Layouts

section Recounting

variable {x : Double}

/-- The search for the shortest decimal does not look at the sign. -/
theorem coarsest_unsigned (n : ℕ) (e : ℤ) :
    (Double.mk false x.magnitude).coarsest n e = x.coarsest n e := by
  induction n generalizing e with
  | zero => rfl
  | succ n ih =>
    have hgrid : (Double.mk false x.magnitude).onGrid? e = x.onGrid? e := rfl
    simp only [Double.coarsest, hgrid, ih]

/-- A number and its negative have the same shortest decimal. -/
theorem shortest_unsigned : (Double.mk false x.magnitude).shortest = x.shortest :=
  coarsest_unsigned _ _

/-- The letter of an exponent in a dump is a small one. -/
theorem notMem_fullForm {text : List Char} (h : FullForm text) : 'E' ∉ text := by
  have hdigit : ∀ {digits : List Char}, Digits digits → 'E' ∉ digits :=
    fun h => notMem_of_isDigit h.isDigit (by decide)
  cases h with
  | positional isWhole isFraction => simp [hdigit isWhole, hdigit isFraction]
  | @scientific first mark fraction digits power isDigit isFraction isMark isPower width =>
    have hfirst : 'E' ≠ first := by
      rintro rfl
      cases isDigit
    have hfraction : 'E' ∉ fraction := fun h =>
      absurd ((isDigit_of_fraction isFraction).2 _ h) (by decide)
    have hmark : 'E' ≠ mark := by
      rintro rfl
      exact absurd isMark (by decide)
    simp [hfirst, hfraction, hmark, hdigit isPower]

/-- What is counted on the text of a number in a dump are the digits of its shortest decimal and
the place of its point. -/
theorem recount_layout (hx : 0 < x.magnitude.val) :
    recount (Json.numberFormat.layout x.shortest.digits x.shortest.point) =
      (x.shortest.digits, x.shortest.point) := by
  have hending : Fraction Json.numberFormat.wholeEnding (List.replicate 1 '0') :=
    .point (digits_toDigits 0)
  have hsignificant := significant_shortest hx
  have hletter := notMem_fullForm (fullForm_layout hsignificant.toDigits x.shortest.point)
  obtain ⟨p, htext, hvalue, -⟩ := lays_shortest hx hending
  have hpos : 0 < p.decimal.coefficient := by
    apply Decimal.coefficient_pos
    rw [hvalue]
    exact (Double.shortest_rounds hx).pos hx
  rw [← htext] at hletter ⊢
  obtain ⟨hdigits, hplaced⟩ := placed_recount p hletter hpos
  rw [hvalue, ← placed_digits] at hplaced
  obtain ⟨hsame, hpoint⟩ := hdigits.unique hsignificant hplaced
  exact Prod.ext hsame hpoint

end Recounting

/-- The digits of a number and the place of its point, as the two texts of the number show them. -/
structure Laid (x : Double) (digits : List Char) (point : ℤ) : Prop where
  significant : Significant digits
  /-- Whatever has this value is read as the number, up to its sign. -/
  readBack : ∀ d : Decimal, d.value = placed digits point → d.toDouble = ⟨false, x.magnitude⟩
  /-- No decimal of fewer digits rounds to the number. -/
  shortest : ∀ d : Decimal, x.Rounds d.value → digits.length ≤ d.digits.length
  /-- The text in a dump has a fraction or an exponent. -/
  dump : ∃ text, (Json.numberFormat.write x).toList = sign x.negative ++ text ∧ FullForm text
  dumpDenotes : ∀ q, Denotes (Json.numberFormat.write x).toList q ↔
    q = signed x.negative (placed digits point)
  /-- The text in code is laid out as ECMAScript does. -/
  code : (number x).toList = sign x.negative ++ numberToString digits point
  codeDenotes : ∀ q, Denotes (number x).toList q ↔ q = signed x.negative (placed digits point)

section Numbers

variable {x y : Double}

/-- What rounds to a finite number is read as the number, up to its sign. -/
theorem toDouble_of_rounds (hfinite : x.isFinite = true) (hzero : x.isZero = false) {d : Decimal}
    (h : x.Rounds d.value) : d.toDouble = ⟨false, x.magnitude⟩ := by
  have hlt := Double.isFinite_iff_lt.mp hfinite
  -- The interval that rounds to a number does not depend on the sign.
  have hrounds : (Double.mk false x.magnitude).Rounds d.value := h
  exact Decimal.toDouble_of_rounds rfl (magnitude_pos hzero) hlt.le hrounds

/-- The digits of the shortest decimal are laid out in both texts. -/
theorem laid_shortest (hfinite : x.isFinite = true) (hzero : x.isZero = false) :
    Laid x x.shortest.digits x.shortest.point := by
  have hpos := magnitude_pos hzero
  have hdigits := significant_shortest hpos
  refine ⟨hdigits, fun d hd => ?_, fun d => Double.shortest_minimal hpos, ?_, fun q => ?_, ?_,
    fun q => ?_⟩
  · apply toDouble_of_rounds hfinite hzero
    rw [hd, placed_digits]
    exact Double.shortest_rounds hpos
  · exact ⟨_, toList_write hfinite hzero, fullForm_layout hdigits.toDigits _⟩
  · rw [placed_digits]
    exact denotes_write hfinite hzero (n := 1) (.point (digits_toDigits 0)) q
  · rw [← layout_eq_numberToString hdigits.nonempty]
    exact toList_write hfinite hzero
  · rw [placed_digits]
    exact denotes_write hfinite hzero (n := 0) .none q

/-- Positive magnitudes with signs in front of them are told apart with their signs. -/
theorem signed_inj {negative negative' : Bool} {q q' : ℚ} (hq : 0 < q) (hq' : 0 < q')
    (h : signed negative q = signed negative' q') : negative = negative' ∧ q = q' := by
  cases negative <;> cases negative' <;>
    simp only [signed, Bool.false_eq_true, if_true, if_false] at h
  · exact ⟨rfl, h⟩
  · linarith
  · linarith
  · exact ⟨rfl, neg_injective h⟩

/-- Significant digits make up a positive rational, wherever the point is. -/
theorem Laid.placed_pos {digits : List Char} {point : ℤ} (h : Laid x digits point) :
    0 < placed digits point := by
  have hpos := (h.significant.toDigits_ofDigits h.significant.head).2
  unfold placed
  positivity

/-- The digits of a number and the place of its point can be told from its text. -/
theorem Laid.unique {digits digits' : List Char} {point point' : ℤ} (h : Laid x digits point)
    (h' : Laid y digits' point') (hcode : number x = number y) :
    x.negative = y.negative ∧ digits = digits' ∧ point = point' := by
  have hdenotes := (h.codeDenotes _).mpr rfl
  rw [hcode, h'.codeDenotes] at hdenotes
  obtain ⟨hsign, hplaced⟩ := signed_inj h.placed_pos h'.placed_pos hdenotes
  exact ⟨hsign, h.significant.unique h'.significant hplaced⟩

/-- Numbers other than zero are told apart by their texts. -/
theorem number_injective (hx : x.isFinite = true) (hx' : x.isZero = false)
    (hy : y.isFinite = true) (hy' : y.isZero = false) (h : number x = number y) : x = y := by
  have hlaid := laid_shortest hx hx'
  have hlaid' := laid_shortest hy hy'
  obtain ⟨hsign, hdigits, hpoint⟩ := hlaid.unique hlaid' h
  have hread := hlaid.readBack x.shortest (placed_digits _).symm
  have hread' := hlaid'.readBack x.shortest (by rw [← hdigits, ← hpoint, placed_digits])
  obtain ⟨negative, magnitude⟩ := x
  obtain ⟨negative', magnitude'⟩ := y
  simp only [Double.mk.injEq]
  exact ⟨hsign, (Double.mk.inj (hread.symm.trans hread')).2⟩

end Numbers

/-- The text of a number that lays out anew what its dump shows. A negative number is written
behind a minus sign. -/
def relaid (x : Double) : String :=
  if x.isNaN then "NaN"
  else if x.isInfinite then if x.negative then "-Infinity" else "Infinity"
  else if x.isZero then "0"
  else
    let (digits, point) := recount (Json.numberFormat.write ⟨false, x.magnitude⟩).toList
    String.ofList (sign x.negative ++ numberToString digits point)

section Relaid

variable {x : Double}

/-- The dump of a number that is not negative shows the digits of its shortest decimal. -/
theorem recount_dump (hfinite : x.isFinite = true) (hzero : x.isZero = false) :
    recount (Json.numberFormat.write ⟨false, x.magnitude⟩).toList =
      (x.shortest.digits, x.shortest.point) := by
  have hwrite := toList_write (f := Json.numberFormat) (x := ⟨false, x.magnitude⟩) hfinite hzero
  rw [shortest_unsigned] at hwrite
  have hunsigned : sign (Double.mk false x.magnitude).negative = [] := rfl
  rw [hwrite, hunsigned, List.nil_append]
  exact recount_layout (magnitude_pos hzero)

/-- A finite number other than zero is laid out in code as its dump shows. -/
theorem number_eq_relaid_of_isFinite (hfinite : x.isFinite = true) (hzero : x.isZero = false) :
    number x = relaid x := by
  obtain ⟨hnan, hinfinite⟩ := Double.isFinite_iff.mp hfinite
  have hcode := (laid_shortest hfinite hzero).code
  unfold relaid
  simp only [hnan, hinfinite, hzero, recount_dump hfinite hzero, Bool.false_eq_true, if_false]
  rw [← hcode, String.ofList_toList]

/-- The text of every number in code can be made from its text in a dump: the digits and the place
of the point that are counted there are those of the number. -/
theorem number_eq_relaid (x : Double) : number x = relaid x := by
  by_cases hnan : x.isNaN = true
  · simp [number, NumberFormat.write, relaid, hnan]
  by_cases hinfinite : x.isInfinite = true
  · have hzero : x.isZero = false := by
      apply Double.isZero_of_not_isFinite
      rw [← Bool.not_eq_true, Double.isFinite_iff, hinfinite]
      simp
    cases hsign : x.negative <;>
      simp [number, NumberFormat.write, relaid, hnan, hinfinite, hzero, hsign]
  by_cases hzero : x.isZero = true
  · cases hsign : x.negative <;>
      simp [number, NumberFormat.write, relaid, hnan, hinfinite, hzero, hsign, numberFormat]
  · rw [Bool.not_eq_true] at hnan hinfinite hzero
    exact number_eq_relaid_of_isFinite (Double.isFinite_iff.mpr ⟨hnan, hinfinite⟩) hzero

end Relaid

/-- A finite number other than zero has one sequence of significant digits and one place for its
point. Its text in code lays them out as ECMAScript does, its text in a dump has one of two forms,
and both denote the same rational, which no shorter decimal can stand for. Different numbers have
different texts. The digits and the place of the point are what is counted on the dump, so that the
text in code lays out anew what the dump shows. -/
theorem number_laid {x : Double} (hfinite : x.isFinite = true) (hzero : x.isZero = false) :
    (∃! laid : List Char × ℤ, Laid x laid.1 laid.2) ∧
      (∀ y : Double, y.isFinite = true → y.isZero = false → number y = number x → y = x) ∧
      (∀ digits point, Laid x digits point →
        recount (Json.numberFormat.write ⟨false, x.magnitude⟩).toList = (digits, point)) ∧
      number x = relaid x := by
  have hlaid := laid_shortest hfinite hzero
  have hunique : ∀ digits point, Laid x digits point →
      (digits, point) = (x.shortest.digits, x.shortest.point) := by
    intro digits point h
    obtain ⟨-, hdigits, hpoint⟩ := h.unique hlaid rfl
    exact Prod.ext hdigits hpoint
  refine ⟨⟨(_, _), hlaid, fun laid h => hunique _ _ h⟩, fun y hy hy' h => ?_,
    fun digits point h => ?_, number_eq_relaid x⟩
  · exact number_injective hy hy' hfinite hzero h
  · rw [hunique digits point h]
    exact recount_dump hfinite hzero

section Sample

/-- A number that is too small to be written without an exponent. -/
def smallNumber : Double := (Decimal.mk 15 (-8)).toDouble

/-- The search finds two digits, which both texts lay out. -/
theorem laid_smallNumber : Laid smallNumber ['1', '5'] (-6) := by
  have hlaid : Laid smallNumber smallNumber.shortest.digits smallNumber.shortest.point :=
    laid_shortest (by decide +kernel) (by decide +kernel)
  have hshortest : smallNumber.shortest = ⟨15, -8⟩ := by decide +kernel
  rw [hshortest] at hlaid
  exact hlaid

end Sample

/-- The exponent of a small number has two digits in a dump and one in code. Its significant digits
are the only ones, and it is the only number of this code. Counted on its dump, they are laid out
anew. -/
theorem number_laid_small :
    (smallNumber.isFinite = true ∧ smallNumber.isZero = false) ∧
      (Json.numberFormat.write smallNumber = "1.5e-07" ∧ number smallNumber = "1.5e-7") ∧
      (∀ digits point, Laid smallNumber digits point ↔ digits = ['1', '5'] ∧ point = -6) ∧
      (∀ y : Double, y.isFinite = true → y.isZero = false → number y = "1.5e-7" →
        y = smallNumber) ∧
      recount "1.5e-07".toList = (['1', '5'], -6) ∧ relaid smallNumber = "1.5e-7" := by
  have hfinite : smallNumber.isFinite = true := by decide +kernel
  have hzero : smallNumber.isZero = false := by decide +kernel
  have hdump : Json.numberFormat.write smallNumber = "1.5e-07" := by decide +kernel
  have hcode : number smallNumber = "1.5e-7" := by decide +kernel
  have hunsigned : Double.mk false smallNumber.magnitude = smallNumber := by decide +kernel
  obtain ⟨hunique, hsame, hcount, hrelaid⟩ := number_laid hfinite hzero
  refine ⟨⟨hfinite, hzero⟩, ⟨hdump, hcode⟩, fun digits point => ⟨fun h => ?_, ?_⟩, ?_, ?_, ?_⟩
  · have heq : (digits, point) = (['1', '5'], -6) := hunique.unique h laid_smallNumber
    exact Prod.mk.inj heq
  · rintro ⟨rfl, rfl⟩
    exact laid_smallNumber
  · rwa [hcode] at hsame
  · have hcounted := hcount _ _ laid_smallNumber
    rwa [hunsigned, hdump] at hcounted
  · rw [← hrelaid, hcode]

end JavaScript

end Moonbridge
