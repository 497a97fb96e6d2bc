import Moonbridge.Proofs.JavaScript.Lexing
import Moonbridge.Proofs.Json.Unambiguous

/-!
# String literals

A reader for all string literals of ECMAScript between double quotes. It gives the UTF-16 units that
a literal denotes. A character stands for its own units, except that a quote, a backslash, a line
feed and a carriage return cannot stand alone. Behind a backslash a line break is dropped, some
letters stand for control characters, digits write a unit or a code point, and every other character
stands for itself. Octal escapes, which strict code refuses, are refused.

Escaping replaces each character of a text by itself or by an escape that denotes it. So a text in
quotes is a literal that ends at its last quote and denotes exactly the text.
-/

namespace Moonbridge.JavaScript

open Json (utf16)

namespace StringLiteral

open Lexeme (hexValue singleEscapes)

/-- The characters that end a line. -/
def lineTerminators : List Char := ['\n', '\r', '\u2028', '\u2029']

/-- The units of a code point. Half a surrogate pair is a unit of its own. -/
def codeUnits (code : Nat) : List Nat :=
  if code < 0x10000 then [code]
  else [0xd800 + (code - 0x10000) / 0x400, 0xdc00 + (code - 0x10000) % 0x400]

/-- The number that hexadecimal digits write. -/
def hexNumber? (digits : List Char) : Option Nat := do
  let values ← digits.mapM hexValue
  pure (values.foldl (fun number value => 16 * number + value) 0)

/-- The unit that is written with the given number of hexadecimal digits. -/
def readUnit (width : Nat) (input : List Char) : Option (List Nat × List Char) := do
  let unit ← hexNumber? (input.take width)
  if width ≤ input.length then some ([unit], input.drop width) else none

/-- The units of a code point that is written with hexadecimal digits up to a closing brace. -/
def readCodePoint (input : List Char) : Option (List Nat × List Char) := do
  let digits := input.takeWhile (· != '\x7d')
  let code ← hexNumber? digits
  if digits ≠ [] ∧ digits.length < input.length ∧ code ≤ 0x10ffff then
    some (codeUnits code, input.drop (digits.length + 1))
  else none

/-- What the text behind a backslash denotes. -/
def readEscape (input : List Char) : Option (List Nat × List Char) :=
  match input with
  | [] => none
  | '\r' :: '\n' :: rest => some ([], rest)
  | 'u' :: '\x7b' :: rest => readCodePoint rest
  | c :: rest =>
    if c ∈ lineTerminators then some ([], rest)
    else if c = 'x' then readUnit 2 rest
    else if c = 'u' then readUnit 4 rest
    else if c = '0' ∧ ¬ rest.head?.any Char.isDigit then some ([0], rest)
    else if c.isDigit then none
    else some (utf16 ((singleEscapes.lookup c).getD c), rest)

/-- What the text up to the closing quote denotes. -/
def readInside (input : List Char) : Option (List Nat × List Char) :=
  match input with
  | [] => none
  | c :: rest =>
    if c = '"' then some ([], rest)
    else if c = '\\' then do
      let (units, ⟨rest, _⟩) ← advance rest (readEscape rest)
      let (others, rest) ← readInside rest
      pure (units ++ others, rest)
    else if c = '\n' ∨ c = '\r' then none
    else do
      let (others, rest) ← readInside rest
      pure (utf16 c ++ others, rest)
termination_by input.length

/-- What the literal at the front denotes, and the text behind it. -/
def read (input : List Char) : Option (List Nat × List Char) :=
  match input with
  | '"' :: rest => readInside rest
  | _ => none

end StringLiteral

/-- The UTF-16 units of a text. -/
def units (text : String) : List Nat := text.toList.flatMap utf16

/-- A text is determined by its units. -/
theorem units_inj {s t : String} : units s = units t ↔ s = t := by
  refine ⟨fun h => ?_, congrArg units⟩
  have hchars := congrArg Json.ofUtf16? h
  rw [units, units, Json.ofUtf16?_flatMap, Json.ofUtf16?_flatMap] at hchars
  exact String.toList_injective (Option.some.inj hchars)

section OnePass

/-- A character as it stands in a literal. -/
def escaped (c : Char) : List Char := (escapes.lookup c).getD [c]

/-- A listed character is escaped as the list says. -/
theorem escaped_of_mem {e : Char × List Char} (h : e ∈ escapes) : escaped e.1 = e.2 := by
  have hall : ∀ e ∈ escapes, escaped e.1 = e.2 := by decide
  exact hall e h

/-- The replacements one after the other do to a character what the table says. -/
theorem escapeChars_singleton (c : Char) : escapeChars [c] = escaped c := by
  by_cases hc : ∃ e ∈ escapes, c = e.1
  · obtain ⟨e, he, rfl⟩ := hc
    rw [escaped_of_mem he, escapeChars_of_mem he]
  · have hother : ∀ e ∈ escapes, c ≠ e.1 := fun e he heq => hc ⟨e, he, heq⟩
    have hnone : escapes.lookup c = none := by
      rw [List.lookup_eq_none_iff]
      exact fun e he => bne_iff_ne.mpr (hother e he)
    rw [escapeChars_other hother, escaped, hnone, Option.getD_none]

/-- A character has an escape, or it stands for itself and means nothing special in a literal. -/
theorem escaped_cases (c : Char) :
    (∃ e ∈ escapes, c = e.1 ∧ escaped c = e.2) ∨ (escaped c = [c] ∧ c ∉ literalMarks) := by
  rw [← escapeChars_singleton]
  exact escapeChars_cases c

/-- The replacements one after the other come to one pass over the text: none of them acts on what
another one has put in. -/
theorem escapeChars_eq_flatMap (text : List Char) : escapeChars text = text.flatMap escaped := by
  induction text with
  | nil => rfl
  | cons c text ih =>
    rw [← List.singleton_append, escapeChars_append, escapeChars_singleton, ih,
      List.flatMap_append, List.flatMap_singleton]

end OnePass

section Denotation

open StringLiteral

/-- Every escape of the table is a backslash and a text that denotes the escaped character. -/
theorem StringLiteral.readEscape_of_mem {e : Char × List Char} (h : e ∈ escapes) :
    ∃ code, e.2 = '\\' :: code ∧ 0 < code.length ∧
      ∀ rest, readEscape (code ++ rest) = some (utf16 e.1, rest) := by
  simp only [escapes, List.mem_cons, List.not_mem_nil, or_false] at h
  rcases h with rfl | rfl | rfl | rfl | rfl | rfl | rfl | rfl | rfl | rfl <;>
    exact ⟨_, rfl, by decide, fun rest => by
      simp [readEscape, readUnit, hexNumber?, Lexeme.hexValue, Lexeme.singleEscapes,
        lineTerminators, Char.isDigit, List.lookup_cons, utf16]⟩

/-- A character of a text denotes its units in a literal. -/
theorem StringLiteral.readInside_escaped (c : Char) (rest : List Char) :
    readInside (escaped c ++ rest) = (readInside rest).map fun r => (utf16 c ++ r.1, r.2) := by
  obtain ⟨e, he, rfl, hchars⟩ | ⟨hchars, hmarks⟩ := escaped_cases c
  · obtain ⟨code, hcode, hpos, hread⟩ := readEscape_of_mem he
    rw [hchars, hcode, List.cons_append, readInside, if_neg (by decide), if_pos rfl, hread,
      advance_some (by simp [hpos])]
    cases hrest : readInside rest <;> simp [hrest]
  · simp only [literalMarks, List.mem_cons, not_or] at hmarks
    rw [hchars, List.singleton_append, readInside, if_neg hmarks.1, if_neg hmarks.2.1,
      if_neg (by simp [hmarks])]
    cases readInside rest <;> rfl

/-- A text in quotes is read up to its last quote, and denotes its units. -/
theorem StringLiteral.read_stringLiteral (text : String) (rest : List Char) :
    read ((stringLiteral text).toList ++ rest) = some (units text, rest) := by
  have hinside : ∀ chars : List Char, readInside (chars.flatMap escaped ++ '"' :: rest) =
      some (chars.flatMap utf16, rest) := by
    intro chars
    induction chars with
    | nil => rw [List.flatMap_nil, List.nil_append, readInside, if_pos rfl, List.flatMap_nil]
    | cons c chars ih =>
      rw [List.flatMap_cons, List.append_assoc, readInside_escaped, ih, List.flatMap_cons]
      rfl
  have hchars : (stringLiteral text).toList ++ rest =
      '"' :: (text.toList.flatMap escaped ++ '"' :: rest) := by
    simp [stringLiteral, escape, escapeChars_eq_flatMap]
  rw [hchars, read, hinside, units]

/-- No line ends within an escaped text. -/
theorem oneLine_escaped (text : String) {c : Char} (h : c ∈ (escape text).toList) :
    c ∉ lineTerminators := by
  rw [escape, String.toList_ofList, escapeChars_eq_flatMap, List.mem_flatMap] at h
  obtain ⟨d, -, hc⟩ := h
  obtain ⟨e, he, rfl, hchars⟩ | ⟨hchars, hmarks⟩ := escaped_cases d
  · rw [hchars] at hc
    have hall : ∀ e ∈ escapes, ∀ c ∈ e.2, c ∉ lineTerminators := by
      simp [escapes, lineTerminators]
    exact hall e he c hc
  · rw [hchars, List.mem_singleton] at hc
    subst hc
    have hsubset : lineTerminators ⊆ literalMarks := by decide
    exact fun hmem => hmarks (hsubset hmem)

end Denotation

/-- Escaping encodes texts. In quotes an escaped text is one whole literal, which denotes the text
and is told from the literals of all other texts; no line ends within it. Each character is escaped
by itself, as the table says, so that texts can be escaped piece by piece. -/
theorem escape_encodes (text : String) :
    (∀ rest, StringLiteral.read ((stringLiteral text).toList ++ rest) = some (units text, rest)) ∧
    (∀ other, units other = units text ↔ other = text) ∧
    (∀ c ∈ (escape text).toList, c ∉ StringLiteral.lineTerminators) ∧
    (escape text).toList = text.toList.flatMap escaped ∧
    ∀ other, escape (text ++ other) = escape text ++ escape other := by
  refine ⟨StringLiteral.read_stringLiteral text, fun other => units_inj,
    fun c => oneLine_escaped text, ?_, fun other => ?_⟩
  · rw [escape, String.toList_ofList, escapeChars_eq_flatMap]
  · rw [escape, String.toList_append, escapeChars_append, String.ofList_append, escape, escape]

end Moonbridge.JavaScript
