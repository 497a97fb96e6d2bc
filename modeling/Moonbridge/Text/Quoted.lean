import Moonbridge.Text.Digits
import Moonbridge.Text.Printable

/-!
# Quoted text in messages

Messages show a piece of text between quotes. The mark is the apostrophe unless the text
has an apostrophe and no double quote. The mark and the backslash are escaped by a
backslash, line feed, carriage return and tab by a letter, and every other character
without a printed form by its code point.
-/

namespace Moonbridge.Text

/-- The apostrophe. -/
def apostrophe : Char := '\x27'

/-- The mark that a piece of text is quoted with. -/
def quoteMark (text : List Char) : Char :=
  if text.contains apostrophe && !text.contains '"' then '"' else apostrophe

/-- The escape of a character without a printed form: two, four or eight hexadecimal
digits, whichever is the first to hold its code point. -/
def codePointEscape (c : Char) : List Char :=
  if c.toNat < 0x100 then '\\' :: 'x' :: zeroPadded 16 2 c.toNat
  else if c.toNat < 0x10000 then '\\' :: 'u' :: zeroPadded 16 4 c.toNat
  else '\\' :: 'U' :: zeroPadded 16 8 c.toNat

/-- A character as it stands between two marks. -/
def quotedChar (mark c : Char) : List Char :=
  if c = mark ∨ c = '\\' then ['\\', c]
  else if c = '\n' then ['\\', 'n']
  else if c = '\r' then ['\\', 'r']
  else if c = '\t' then ['\\', 't']
  else if isPrintable c then [c]
  else codePointEscape c

/-- A piece of text between quotes. -/
def quoted (text : String) : String :=
  let mark := quoteMark text.toList
  String.ofList (mark :: text.toList.flatMap (quotedChar mark) ++ [mark])

end Moonbridge.Text
