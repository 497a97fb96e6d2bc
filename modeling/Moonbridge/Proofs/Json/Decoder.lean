import Moonbridge.Proofs.JavaScript.Reader
import Moonbridge.Proofs.Json.Grammar

/-!
# Reading JSON documents

A reader for the JSON grammar. The first character of a value tells how to go on, a number is taken
as far as it goes, and a pair of UTF-16 units that belong together is one character. The inside of
an array or an object is read item by item, and a reader goes on only behind something it has read.
-/

namespace Moonbridge.Json

open JavaScript (advance)

/-- What follows the blanks at the front. -/
def skipBlanks (input : List Char) : List Char := input.dropWhile (· ∈ blanks)

/-- Skipping blanks does not lengthen the input. -/
theorem length_skipBlanks_le (input : List Char) : (skipBlanks input).length ≤ input.length :=
  List.IsSuffix.length_le (List.dropWhile_suffix _)

/-- What stands behind a character, if the character is at the front. -/
def behind? (c : Char) (input : List Char) :
    Option {rest : List Char // rest.length < input.length} :=
  match input with
  | found :: rest => if found = c then some ⟨rest, Nat.lt_add_one rest.length⟩ else none
  | [] => none

section Numbers

/-- The sign at the front. -/
def readSign : List Char → Bool × List Char
  | '-' :: rest => (true, rest)
  | input => (false, input)

/-- The digits at the front. -/
def readDigits (input : List Char) : Option (List Char × List Char) :=
  let digits := input.takeWhile Char.isDigit
  if digits = [] then none else some (digits, input.dropWhile Char.isDigit)

/-- The digits behind the point, where there is one. -/
def readFraction : List Char → Option (Option (List Char) × List Char)
  | '.' :: rest => do
    let (digits, rest) ← readDigits rest
    some (some digits, rest)
  | input => some (none, input)

/-- The sign of an exponent. -/
def readPowerSign : List Char → Bool × List Char
  | '+' :: rest => (false, rest)
  | '-' :: rest => (true, rest)
  | input => (false, input)

/-- The exponent at the front, where there is one. -/
def readExponent : List Char → Option (Option Int × List Char)
  | [] => some (none, [])
  | mark :: rest =>
    if mark ∈ ['e', 'E'] then do
      let (negative, rest) := readPowerSign rest
      let (digits, rest) ← readDigits rest
      some (some (signed negative (Decimal.ofDigits digits)), rest)
    else some (none, mark :: rest)

/-- The number at the front. -/
def readNumber (input : List Char) : Option (Json × List Char) := do
  let (negative, rest) := readSign input
  let (whole, rest) ← readDigits rest
  if whole.head? = some '0' ∧ whole ≠ ['0'] then none
  else
    let (fraction, rest) ← readFraction rest
    let (exponent, rest) ← readExponent rest
    match fraction, exponent with
    | none, none => some (.int (signed negative (Decimal.ofDigits whole)), rest)
    | fraction, exponent =>
      let digits := fraction.getD []
      let decimal : Decimal :=
        ⟨Decimal.ofDigits (whole ++ digits), exponent.getD 0 - digits.length⟩
      some (.number (nearest negative decimal), rest)

end Numbers

section Strings

/-- The units of a string up to the closing quote. -/
def readUnits : List Char → Option (List Nat × List Char)
  | [] => none
  | '"' :: rest => some ([], rest)
  | '\\' :: 'u' :: a :: b :: c :: d :: rest => do
    let unit ← unitOf? a b c d
    let (units, rest) ← readUnits rest
    some (unit :: units, rest)
  | '\\' :: letter :: rest => do
    let c ← shortEscapes.lookup letter
    let (units, rest) ← readUnits rest
    some (utf16 c ++ units, rest)
  | c :: rest => do
    if isPlain c then
      let (units, rest) ← readUnits rest
      some (utf16 c ++ units, rest)
    else none

/-- The characters of UTF-16 units. Half a pair has none. -/
def ofUtf16? : List Nat → Option (List Char)
  | [] => some []
  | unit :: units =>
    if 0xd800 ≤ unit ∧ unit < 0xdc00 then
      match units with
      | low :: units =>
        if 0xdc00 ≤ low ∧ low < 0xe000 then
          (ofUtf16? units).map
            (Char.ofNat (0x10000 + (unit - 0xd800) * 0x400 + (low - 0xdc00)) :: ·)
        else none
      | [] => none
    else if 0xdc00 ≤ unit ∧ unit < 0xe000 then none
    else (ofUtf16? units).map (Char.ofNat unit :: ·)

/-- The string behind an opening quote. -/
def readQuoted (input : List Char) : Option (String × List Char) := do
  let (units, rest) ← readUnits input
  let text ← ofUtf16? units
  some (String.ofList text, rest)

/-- The name of a member at the front. -/
def readName (input : List Char) : Option (String × List Char) :=
  match skipBlanks input with
  | '"' :: rest => do
    let (key, rest) ← readQuoted rest
    some (key, skipBlanks rest)
  | _ => none

end Strings

/-- The word at the front. -/
def readWord (input : List Char) : Option (Json × List Char) := do
  let (text, value) ← words.find? (·.1.isPrefixOf input)
  some (value, input.drop text.length)

mutual

/-- The value at the front. -/
def readValue (input : List Char) : Option (Json × List Char) :=
  match input with
  | c :: rest =>
    if c = '"' then do
      let (text, rest) ← readQuoted rest
      some (.string text, rest)
    else if c = '[' then
      match skipBlanks rest with
      | ']' :: after => some (.array [], after)
      | _ => do
        let (items, after) ← readItems rest
        some (.array items, after)
    else if c = '\x7b' then
      match skipBlanks rest with
      | '\x7d' :: after => some (.object [], after)
      | _ => do
        let (members, after) ← readMembers rest
        some (.object members, after)
    else if c = '-' ∨ c.isDigit = true then readNumber (c :: rest)
    else readWord (c :: rest)
  | [] => none
termination_by (input.length, 0)

/-- The value at the front with the blanks around it. -/
def readElement (input : List Char) : Option (Json × List Char) := do
  let (value, rest) ← readValue (skipBlanks input)
  some (value, skipBlanks rest)
termination_by (input.length, 1)
decreasing_by
  have hle := length_skipBlanks_le input
  rcases Nat.lt_or_eq_of_le hle with hlt | heq
  · exact Prod.Lex.left _ _ hlt
  · rw [heq]
    exact Prod.Lex.right _ Nat.zero_lt_one

/-- The items of an array up to the closing bracket. -/
def readItems (input : List Char) : Option (List Json × List Char) := do
  let (value, ⟨rest, _⟩) ← advance input (readElement input)
  match behind? ',' rest with
  | some ⟨rest, _⟩ => do
    let (values, rest) ← readItems rest
    some (value :: values, rest)
  | none => do
    let ⟨rest, _⟩ ← behind? ']' rest
    some ([value], rest)
termination_by (input.length, 2)

/-- The members of an object up to the closing brace. -/
def readMembers (input : List Char) : Option (List (String × Json) × List Char) := do
  let (key, ⟨rest, _⟩) ← advance input (readName input)
  let ⟨rest, _⟩ ← behind? ':' rest
  let (value, ⟨rest, _⟩) ← advance rest (readElement rest)
  match behind? ',' rest with
  | some ⟨rest, _⟩ => do
    let (members, rest) ← readMembers rest
    some ((key, value) :: members, rest)
  | none => do
    let ⟨rest, _⟩ ← behind? '\x7d' rest
    some ([(key, value)], rest)
termination_by (input.length, 2)

end

/-- The value that a document denotes. -/
def decode (text : String) : Option Json := do
  let (value, rest) ← readElement text.toList
  if rest = [] then some value else none

end Moonbridge.Json
