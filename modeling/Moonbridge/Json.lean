import Moonbridge.Number.Format

/-!
# JSON documents

Dumps are JSON documents in ASCII: a character outside the printable ASCII range is escaped,
beyond the basic plane as a pair of surrogates. Numbers keep a fraction, so that they read
back as doubles. A document is printed on one line, or with each item on a line of its own.
-/

namespace Moonbridge

/-- A JSON value. Whole numbers and doubles are kept apart; members keep their order. -/
inductive Json
  | null
  | bool (value : Bool)
  | int (value : Int)
  | number (value : Double)
  | string (value : String)
  | array (items : List Json)
  | object (members : List (String × Json))

namespace Json

/-- Numbers are written without an exponent from a ten-thousandth up to 10 ^ 16, and whole
numbers have a fraction. -/
def numberFormat : NumberFormat where
  leastPoint := -4
  greatestPoint := 16
  wholeEnding := ['.', '0']
  exponentWidth := 2
  zero := "0.0"
  negativeZero := "-0.0"

/-- The escape of one UTF-16 unit. -/
def unitEscape (unit : Nat) : List Char := '\\' :: 'u' :: Text.zeroPadded 16 4 unit

/-- A character as it stands in a string. -/
def stringChar (c : Char) : List Char :=
  if c = '"' then ['\\', '"']
  else if c = '\\' then ['\\', '\\']
  else if c = '\n' then ['\\', 'n']
  else if c = '\r' then ['\\', 'r']
  else if c = '\t' then ['\\', 't']
  else if c = '\x0c' then ['\\', 'f']
  else if c = '\x08' then ['\\', 'b']
  else if ' ' ≤ c ∧ c ≤ '~' then [c]
  else if c.toNat < 0x10000 then unitEscape c.toNat
  else
    let rest := c.toNat - 0x10000
    unitEscape (0xd800 + rest / 0x400) ++ unitEscape (0xdc00 + rest % 0x400)

/-- A string in quotes. -/
def quoted (text : String) : String :=
  String.ofList ('"' :: text.toList.flatMap stringChar ++ ['"'])

/-- How a document is laid out: on one line, or indented by a number of spaces a level. -/
inductive Layout
  | line
  | indented (width : Nat)
  deriving DecidableEq, Repr

namespace Layout

/-- What stands between a bracket and the items at a level. -/
def gap : Layout → Nat → String
  | line, _ => ""
  | indented width, level => "\n" ++ String.ofList (List.replicate (width * level) ' ')

/-- What stands between two items at a level. -/
def separator : Layout → Nat → String
  | line, _ => ", "
  | indented width, level => "," ++ (indented width).gap level

/-- The items of a level between the brackets of the level around it. -/
def enclose (layout : Layout) (level : Nat) (opening closing : String) (items : List String) :
    String :=
  if items.isEmpty then opening ++ closing
  else
    opening ++ layout.gap (level + 1) ++ (layout.separator (level + 1)).intercalate items ++
      layout.gap level ++ closing

end Layout

mutual

/-- The text of a value at a level. -/
def render (layout : Layout) (level : Nat) : Json → String
  | null => "null"
  | bool value => if value then "true" else "false"
  | int value => toString value
  | number value => numberFormat.write value
  | string value => quoted value
  | array items => layout.enclose level "[" "]" (renderItems layout (level + 1) items)
  | object members =>
    layout.enclose level "\x7b" "\x7d" (renderMembers layout (level + 1) members)

/-- The texts of the items of an array. -/
def renderItems (layout : Layout) (level : Nat) : List Json → List String
  | [] => []
  | item :: items => render layout level item :: renderItems layout level items

/-- The texts of the members of an object. -/
def renderMembers (layout : Layout) (level : Nat) : List (String × Json) → List String
  | [] => []
  | (key, value) :: members =>
    (quoted key ++ ": " ++ render layout level value) :: renderMembers layout level members

end

/-- The text of a document. -/
def print (layout : Layout) (document : Json) : String := document.render layout 0

end Json

end Moonbridge
