import Moonbridge.Proofs.JavaScript.Lexing
import Moonbridge.Proofs.Number.Layout

/-!
# Reading numbers back

The text of a number lays out the digits of its shortest decimal around the point or in front
of an exponent. In each layout the text is read as a decimal of the same value, so as the same
number.
-/

namespace Moonbridge.JavaScript

open Lexeme Numeral Text

/-- The characters that stand behind an expression. -/
def stops : List Char := [' ', '(', ')', '[', ']', '\x7d', ',', ':']

/-- An expression ends in front of the text. -/
def Ends (rest : List Char) : Prop := ∀ c ∈ rest.head?, c ∈ stops

section Ends

variable {rest : List Char}

/-- Where an expression ends, no digit follows. -/
theorem Ends.isDigit (h : Ends rest) : Stops Char.isDigit rest := by
  have hall : ∀ c ∈ stops, c.isDigit = false := by simp [stops]
  exact fun c hc => hall c (h c hc)

/-- Where an expression ends, no word goes on. -/
theorem Ends.isWordPart (h : Ends rest) : Stops isWordPart rest := by
  have hall : ∀ c ∈ stops, Lexeme.isWordPart c = false := by
    simp [stops, Lexeme.isWordPart, isWordStart]
  exact fun c hc => hall c (h c hc)

/-- Where an expression ends, a number has no fraction. -/
theorem Ends.readFraction (h : Ends rest) : readFraction rest = ([], rest) := by
  cases rest with
  | nil => rfl
  | cons c rest =>
    have hall : ∀ c ∈ stops, c ≠ '.' := by simp [stops]
    simp [Lexeme.readFraction, hall c (h c rfl)]

/-- Where an expression ends, a number has no exponent. -/
theorem Ends.readExponent (h : Ends rest) : readExponent rest = some (0, rest) := by
  cases rest with
  | nil => rfl
  | cons c rest =>
    have hall : ∀ c ∈ stops, ¬ (c = 'e' ∨ c = 'E') := by simp [stops]
    simp only [Lexeme.readExponent, if_neg (hall c (h c rfl))]

end Ends

section Parts

variable {whole fraction after rest : List Char} {exponent : Int}

/-- A number is read from its parts. -/
theorem readNumber_of_parts {after' : List Char} (hwhole : ∀ c ∈ whole, c.isDigit = true)
    (hafter : Stops Char.isDigit after) (hfraction : readFraction after = (fraction, after'))
    (hexponent : readExponent after' = some (exponent, rest))
    (hzero : whole.head? = some '0' → whole = ['0']) (hrest : Stops isWordPart rest) :
    readNumber (whole ++ after) =
      some (.number (Decimal.mk (Decimal.ofDigits (whole ++ fraction))
        (exponent - fraction.length)).toDouble, rest) := by
  have hnext : rest.head?.any isWordPart = false := by
    cases hhead : rest.head? with
    | none => rfl
    | some c => simpa using hrest c hhead
  have hleading : ¬ (whole.head? = some '0' ∧ whole ≠ ['0']) := fun h => h.2 (hzero h.1)
  simp only [readNumber, takeWhile_run hwhole hafter, dropWhile_run hwhole hafter, hfraction,
    hexponent, Option.bind_eq_bind, Option.bind_some, if_neg hleading, hnext]
  rfl

/-- A point in front of digits is read with them. -/
theorem readFraction_digits (hfraction : Digits fraction) (hafter : Stops Char.isDigit after) :
    readFraction ('.' :: (fraction ++ after)) = (fraction, after) := by
  simp only [readFraction, takeWhile_run hfraction.isDigit hafter,
    dropWhile_run hfraction.isDigit hafter]

/-- The digits of an exponent are read behind its sign. -/
theorem readExponent_digits {mark : Char} {signed digits : List Char} {sign : Int}
    (hmark : mark ∈ ['e', 'E']) (hsign : readSign signed = (sign, digits ++ rest))
    (hdigits : Digits digits) (hrest : Ends rest) :
    readExponent (mark :: signed) = some (sign * Decimal.ofDigits digits, rest) := by
  have hletter : mark = 'e' ∨ mark = 'E' := by simpa using hmark
  simp only [readExponent, if_pos hletter, hsign, takeWhile_run hdigits.isDigit hrest.isDigit,
    dropWhile_run hdigits.isDigit hrest.isDigit, if_neg hdigits.nonempty]

/-- Digits have no sign. -/
theorem readSign_digits {digits : List Char} (hdigits : Digits digits) (rest : List Char) :
    readSign (digits ++ rest) = (1, digits ++ rest) := by
  obtain ⟨c, others, rfl⟩ := List.exists_cons_of_ne_nil hdigits.nonempty
  have hc := hdigits.isDigit c List.mem_cons_self
  unfold readSign
  split
  · rename_i heq
    obtain ⟨rfl, -⟩ := List.cons.inj heq
    cases hc
  · rename_i heq
    obtain ⟨rfl, -⟩ := List.cons.inj heq
    cases hc
  · rfl

/-- The exponent of a written number is read back in front of the end of an expression. -/
theorem readExponent_parts {text : List Char} {power : Int} (h : Exponent text power)
    (hrest : Ends rest) : readExponent (text ++ rest) = some (power, rest) := by
  cases h with
  | none => exact hrest.readExponent
  | bare isMark isDigits =>
    simpa using readExponent_digits isMark (readSign_digits isDigits rest) isDigits hrest
  | @plus mark digits isMark isDigits =>
    have hsign : readSign ('+' :: (digits ++ rest)) = (1, digits ++ rest) := rfl
    simpa using readExponent_digits isMark hsign isDigits hrest
  | @minus mark digits isMark isDigits =>
    have hsign : readSign ('-' :: (digits ++ rest)) = (-1, digits ++ rest) := rfl
    simpa using readExponent_digits isMark hsign isDigits hrest

/-- Behind the digits in front of it, an exponent starts with its letter. -/
theorem exponent_apart {text : List Char} {power : Int} (h : Exponent text power)
    (hrest : Ends rest) :
    Stops Char.isDigit (text ++ rest) ∧ readFraction (text ++ rest) = ([], text ++ rest) := by
  cases h with
  | none => exact ⟨hrest.isDigit, hrest.readFraction⟩
  | bare isMark _ | plus isMark _ | minus isMark _ =>
    simp only [List.mem_cons, List.not_mem_nil, or_false] at isMark
    rcases isMark with rfl | rfl <;> exact ⟨by simp [Stops], rfl⟩

/-- The fraction of a written number is read back in front of the exponent, and does not continue
the digits in front of it. -/
theorem readFraction_parts {text digits : List Char} (h : Fraction text digits) {power : Int}
    {exponent : List Char} (hexponent : Exponent exponent power) (hrest : Ends rest) :
    Stops Char.isDigit (text ++ (exponent ++ rest)) ∧
      readFraction (text ++ (exponent ++ rest)) = (digits, exponent ++ rest) := by
  have hapart := exponent_apart hexponent hrest
  cases h with
  | none => exact hapart
  | point isDigits => exact ⟨by simp [Stops], readFraction_digits isDigits hapart.1⟩

/-- A written number is read as its decimal. -/
theorem readNumber_parts (p : Parts) (hrest : Ends rest) :
    readNumber (p.text ++ rest) = some (.number p.decimal.toDouble, rest) := by
  obtain ⟨hstops, hfraction⟩ := readFraction_parts p.isFraction p.isExponent hrest
  have hread := readNumber_of_parts p.isWhole.isDigit hstops hfraction
    (readExponent_parts p.isExponent hrest) p.isWhole.zeroAlone hrest.isWordPart
  rw [Parts.text, List.append_assoc, List.append_assoc]
  exact hread

end Parts

section Literals

variable {rest : List Char}

/-- A written number is read as a number. -/
theorem spells_parts (p : Parts) (hrest : Ends rest) :
    Spells p.text [.number p.decimal.toDouble] rest := by
  have hread := readNumber_parts p hrest
  obtain ⟨c, tail, htext, hc⟩ := p.head_text
  rw [htext] at hread ⊢
  have hcode := (isDigit_iff c).mp hc
  have hstart : isWordStart c = false := by
    cases hs : isWordStart c with
    | false => rfl
    | true =>
      rw [isWordStart_iff] at hs
      omega
  refine .of_readLexeme (isSpace_of_isWordPart (by simp [isWordPart, hc])) ?_
  rw [readLexeme, if_neg (by simp [hstart]), if_pos (by simp [hc])]
  exact hread

/-- The text of a natural number is read as the nearest number. -/
theorem spells_position (n : Nat) (hrest : Ends rest) :
    Spells (toString n).toList [.number (Double.ofRatio n 1)] rest := by
  let p : Parts := ⟨Nat.toDigits 10 n, [], [], [], 0, whole_toDigits n, .none, .none⟩
  have htext : p.text = (toString n).toList := by simp [p, Parts.text, Nat.toList_repr]
  have hvalue : p.decimal.toDouble = Double.ofRatio n 1 := by
    simp [p, Parts.decimal, Decimal.toDouble]
  have hspells := spells_parts p hrest
  rwa [htext, hvalue] at hspells

/-- The text of a positive number has parts of the value of its shortest decimal. -/
theorem lays_number {x : Double} (hx : 0 < x.magnitude.val) :
    Lays numberFormat (numberFormat.layout x.shortest.digits x.shortest.point) x.shortest := by
  have hending : Fraction numberFormat.wholeEnding (List.replicate 0 '0') := .none
  exact lays_shortest hx hending

/-- The lexeme of a number. There is no numeral for an infinite one. -/
def numberLexeme (x : Double) : Lexeme := if x.isInfinite then .word "Infinity" else .number x

/-- The text of a number that is not negative is read as the number. -/
theorem spells_number {x : Double} (hsign : x.negative = false) (hnan : x.isNaN = false)
    (hrest : Ends rest) : Spells (number x).toList [numberLexeme x] rest := by
  have hle : x.magnitude.val ≤ Double.infiniteMagnitude := by simpa [Double.isNaN] using hnan
  unfold number NumberFormat.write numberLexeme
  simp only [hnan, hsign, Bool.false_eq_true, if_false]
  by_cases hzero : x.isZero = true
  · have hx : x = ⟨false, 0⟩ := by
      obtain ⟨negative, magnitude, hm⟩ := x
      simp_all [Double.isZero]
    subst hx
    exact spells_position 0 hrest
  · rw [if_neg hzero]
    by_cases hinf : x.isInfinite = true
    · rw [if_pos hinf, if_pos hinf]
      exact spells_word (isWord_of_all (by decide) (by decide)) hrest.isWordPart
    · rw [if_neg hinf, if_neg hinf, String.toList_ofList]
      have hpos : 0 < x.magnitude.val := by
        simp only [Double.isZero, beq_iff_eq] at hzero
        omega
      obtain ⟨p, htext, hvalue, -⟩ := lays_number hpos
      have hspells := spells_parts p hrest
      rwa [htext, Decimal.toDouble_of_value_eq hsign hpos hle hvalue] at hspells

end Literals

end Moonbridge.JavaScript
