import Moonbridge.Json
import Moonbridge.Proofs.Number.Layout

/-!
# The JSON grammar

The texts of the JSON standard and the values they denote. A numeral without a fraction and an
exponent denotes a whole number, every other one the nearest double. A string denotes a sequence of
UTF-16 units: a character stands for its own units and a numbered escape for one unit, so that two
of them may make up one character. A document is a value with blanks around it.
-/

namespace Moonbridge.Json

/-- The characters that may stand between the parts of a document. -/
def blanks : List Char := [' ', '\t', '\n', '\r']

/-- A text of blanks. -/
def Blank (text : List Char) : Prop := ∀ c ∈ text, c ∈ blanks

section Numbers

/-- A sign, and whether it is a minus. -/
inductive Sign : List Char → Bool → Prop
  | none : Sign [] false
  | minus : Sign ['-'] true

/-- The number with the given sign and magnitude. -/
def signed (negative : Bool) (magnitude : Nat) : Int :=
  if negative then -(magnitude : Int) else magnitude

/-- The double with the given sign that is nearest to a decimal. -/
def nearest (negative : Bool) (d : Decimal) : Double := ⟨negative, d.toDouble.magnitude⟩

/-- The texts of numbers, and the numbers they denote. -/
inductive NumberText : List Char → Json → Prop
  | whole {sign whole : List Char} {negative : Bool} (isSign : Sign sign negative)
      (isWhole : Numeral.Whole whole) :
      NumberText (sign ++ whole) (.int (signed negative (Decimal.ofDigits whole)))
  | real {sign : List Char} {negative : Bool} (isSign : Sign sign negative) (p : Numeral.Parts)
      (isReal : p.fraction ≠ [] ∨ p.exponent ≠ []) :
      NumberText (sign ++ p.text) (.number (nearest negative p.decimal))

end Numbers

section Strings

/-- The UTF-16 units of a character. -/
def utf16 (c : Char) : List Nat :=
  if c.toNat < 0x10000 then [c.toNat]
  else [0xd800 + (c.toNat - 0x10000) / 0x400, 0xdc00 + (c.toNat - 0x10000) % 0x400]

/-- The escapes by a letter or a sign, and the characters they stand for. -/
def shortEscapes : List (Char × Char) :=
  [('"', '"'), ('\\', '\\'), ('/', '/'), ('b', '\x08'), ('f', '\x0c'), ('n', '\n'), ('r', '\r'),
    ('t', '\t')]

/-- Whether a character stands for itself in a string. -/
def isPlain (c : Char) : Bool := ' ' ≤ c && c != '"' && c != '\\'

/-- The value of a hexadecimal digit. -/
def hexValue? (c : Char) : Option Nat :=
  if c.isDigit then some (c.toNat - '0'.toNat)
  else if 'a' ≤ c ∧ c ≤ 'f' then some (c.toNat - 'a'.toNat + 10)
  else if 'A' ≤ c ∧ c ≤ 'F' then some (c.toNat - 'A'.toNat + 10)
  else none

/-- The unit that four hexadecimal digits write. -/
def unitOf? (a b c d : Char) : Option Nat := do
  return (((← hexValue? a) * 16 + (← hexValue? b)) * 16 + (← hexValue? c)) * 16 + (← hexValue? d)

/-- The inside of a string and the UTF-16 units it stands for. -/
inductive Units : List Char → List Nat → Prop
  | nil : Units [] []
  | plain {c : Char} {text : List Char} {units : List Nat} (isPlain : isPlain c = true)
      (tail : Units text units) : Units (c :: text) (utf16 c ++ units)
  | short {letter c : Char} {text : List Char} {units : List Nat}
      (listed : (letter, c) ∈ shortEscapes) (tail : Units text units) :
      Units ('\\' :: letter :: text) (utf16 c ++ units)
  | numbered {a b c d : Char} {unit : Nat} {text : List Char} {units : List Nat}
      (isUnit : unitOf? a b c d = some unit) (tail : Units text units) :
      Units ('\\' :: 'u' :: a :: b :: c :: d :: text) (unit :: units)

/-- A text in quotes, and the string it denotes. -/
inductive Quoted : List Char → String → Prop
  | mk {body : List Char} {value : String}
      (isBody : Units body (value.toList.flatMap utf16)) : Quoted ('"' :: body ++ ['"']) value

/-- The name of a member with blanks around it. -/
inductive Name : List Char → String → Prop
  | mk {before text after : List Char} {key : String} (isBefore : Blank before)
      (isText : Quoted text key) (isAfter : Blank after) : Name (before ++ text ++ after) key

end Strings

/-- The words of the grammar and the values they denote. -/
def words : List (List Char × Json) :=
  [(['n', 'u', 'l', 'l'], .null), (['t', 'r', 'u', 'e'], .bool true),
    (['f', 'a', 'l', 's', 'e'], .bool false)]

/-- What a text of the grammar can denote: a value, a value with blanks around it, the items of an
array or the members of an object. -/
inductive Part
  | value (value : Json)
  | element (value : Json)
  | items (items : List Json)
  | members (members : List (String × Json))

/-- The texts of the grammar and what they denote. -/
inductive Denotes : List Char → Part → Prop
  | word {text : List Char} {value : Json} (listed : (text, value) ∈ words) :
      Denotes text (.value value)
  | number {text : List Char} {value : Json} (isNumber : NumberText text value) :
      Denotes text (.value value)
  | string {text : List Char} {value : String} (isQuoted : Quoted text value) :
      Denotes text (.value (.string value))
  | emptyArray {gap : List Char} (isBlank : Blank gap) :
      Denotes ('[' :: gap ++ [']']) (.value (.array []))
  | array {text : List Char} {items : List Json} (inside : Denotes text (.items items)) :
      Denotes ('[' :: text ++ [']']) (.value (.array items))
  | emptyObject {gap : List Char} (isBlank : Blank gap) :
      Denotes ('\x7b' :: gap ++ ['\x7d']) (.value (.object []))
  | object {text : List Char} {members : List (String × Json)}
      (inside : Denotes text (.members members)) :
      Denotes ('\x7b' :: text ++ ['\x7d']) (.value (.object members))
  | element {before text after : List Char} {value : Json} (isBefore : Blank before)
      (inside : Denotes text (.value value)) (isAfter : Blank after) :
      Denotes (before ++ text ++ after) (.element value)
  | lastItem {text : List Char} {value : Json} (last : Denotes text (.element value)) :
      Denotes text (.items [value])
  | item {text others : List Char} {value : Json} {values : List Json}
      (first : Denotes text (.element value)) (rest : Denotes others (.items values)) :
      Denotes (text ++ ',' :: others) (.items (value :: values))
  | lastMember {name text : List Char} {key : String} {value : Json} (isName : Name name key)
      (last : Denotes text (.element value)) :
      Denotes (name ++ ':' :: text) (.members [(key, value)])
  | member {name text others : List Char} {key : String} {value : Json}
      {members : List (String × Json)} (isName : Name name key)
      (first : Denotes text (.element value)) (rest : Denotes others (.members members)) :
      Denotes (name ++ ':' :: text ++ ',' :: others) (.members ((key, value) :: members))

/-- A text is a document that denotes a value. -/
def Document (text : String) (value : Json) : Prop := Denotes text.toList (.element value)

end Moonbridge.Json
