import Moonbridge.Number.Format
import Moonbridge.Token.Basic

/-!
# JavaScript literals

Numbers are written as JavaScript prints them. Texts stand between double quotes, with
escapes for the quote, the backslash, the line terminators and some control characters.
-/

namespace Moonbridge.JavaScript

/-- Numbers are written without an exponent between a millionth and 10 ^ 21, whole numbers
without a point, and both zeros alike. -/
def numberFormat : NumberFormat where
  leastPoint := -6
  greatestPoint := 21
  wholeEnding := []
  exponentWidth := 1
  zero := "0"
  negativeZero := "0"

/-- The text of a number. -/
def number (x : Double) : String := numberFormat.write x

/-- The escaped characters and their escapes. The backslash comes first, so that no escape
is escaped again. -/
def escapes : List (Char × List Char) :=
  [('\\', ['\\', '\\']), ('"', ['\\', '"']), ('\n', ['\\', 'n']), ('\t', ['\\', 't']),
    ('\r', ['\\', 'r']), ('\x0c', ['\\', 'f']), ('\x0b', ['\\', 'v']),
    ('\x00', ['\\', 'x', '0', '0']), ('\u2028', ['\\', 'u', '2', '0', '2', '8']),
    ('\u2029', ['\\', 'u', '2', '0', '2', '9'])]

/-- Puts a text in the place of each occurrence of a character. -/
def replace (c : Char) (replacement text : List Char) : List Char :=
  text.flatMap fun d => if d = c then replacement else [d]

/-- Replacing is a matter of each character alone. -/
theorem replace_append (c : Char) (replacement s t : List Char) :
    replace c replacement (s ++ t) = replace c replacement s ++ replace c replacement t := by
  simp [replace]

/-- Replaces the escaped characters one after the other. -/
def escapeChars (text : List Char) : List Char :=
  escapes.foldl (fun text e => replace e.1 e.2 text) text

/-- A text as it stands between double quotes. -/
def escape (text : String) : String := String.ofList (escapeChars text.toList)

/-- The literal of a text. -/
def stringLiteral (text : String) : String := "\"" ++ escape text ++ "\""

/-- A literal value. -/
def literal : Literal → String
  | .nil => "null"
  | .text value => stringLiteral value
  | .number value => number value

/-- Whether a character may start a property name. -/
def isNameStart (c : Char) : Bool :=
  ('a' ≤ c && c ≤ 'z') || ('A' ≤ c && c ≤ 'Z') || c == '_' || c == '$'

/-- Whether a character may continue a property name. -/
def isNamePart (c : Char) : Bool := isNameStart c || ('0' ≤ c && c ≤ '9')

/-- Whether a text is written as a property name behind a dot. One line break at its end
does not count. -/
def isPropertyName (text : String) : Bool :=
  match text.toList with
  | [] => false
  | c :: rest =>
    isNameStart c &&
      (if rest.getLast? = some '\n' then rest.dropLast else rest).all isNamePart

end Moonbridge.JavaScript
