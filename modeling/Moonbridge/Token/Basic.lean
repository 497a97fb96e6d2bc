import Moonbridge.Number.Double
import Moonbridge.Text.Quoted

/-!
# Tokens

A token is a lexical category, the text it was read from, the value of a literal and the
line it starts on. Lines are integers because a token list need not come from a source.
-/

namespace Moonbridge

/-- The lexical categories. -/
inductive Kind
  | functionKeyword | localKeyword | ifKeyword | thenKeyword | elseKeyword | endKeyword
  | whileKeyword | doKeyword | returnKeyword | andKeyword | orKeyword | nilKeyword
  | plus | minus | star | slash | assign | equal | notEqual
  | less | lessEqual | greater | greaterEqual
  | leftParen | rightParen | leftBrace | rightBrace | leftBracket | rightBracket
  | comma | dot | semicolon | colon
  | identifier | string | number
  | endOfInput
  deriving DecidableEq, Repr

namespace Kind

/-- The name under which a category appears in messages and dumps. -/
def name : Kind → String
  | functionKeyword => "FUNCTION"
  | localKeyword => "LOCAL"
  | ifKeyword => "IF"
  | thenKeyword => "THEN"
  | elseKeyword => "ELSE"
  | endKeyword => "END"
  | whileKeyword => "WHILE"
  | doKeyword => "DO"
  | returnKeyword => "RETURN"
  | andKeyword => "AND"
  | orKeyword => "OR"
  | nilKeyword => "NIL"
  | plus => "PLUS"
  | minus => "MINUS"
  | star => "STAR"
  | slash => "SLASH"
  | assign => "ASSIGN"
  | equal => "EQUAL"
  | notEqual => "NOT_EQUAL"
  | less => "LESS"
  | lessEqual => "LESS_EQUAL"
  | greater => "GREATER"
  | greaterEqual => "GREATER_EQUAL"
  | leftParen => "LEFT_PAREN"
  | rightParen => "RIGHT_PAREN"
  | leftBrace => "LEFT_BRACE"
  | rightBrace => "RIGHT_BRACE"
  | leftBracket => "LEFT_BRACKET"
  | rightBracket => "RIGHT_BRACKET"
  | comma => "COMMA"
  | dot => "DOT"
  | semicolon => "SEMICOLON"
  | colon => "COLON"
  | identifier => "IDENTIFIER"
  | string => "STRING"
  | number => "NUMBER"
  | endOfInput => "EOF"

/-- Every category, in the order of declaration. -/
def all : List Kind :=
  [functionKeyword, localKeyword, ifKeyword, thenKeyword, elseKeyword, endKeyword,
    whileKeyword, doKeyword, returnKeyword, andKeyword, orKeyword, nilKeyword,
    plus, minus, star, slash, assign, equal, notEqual,
    less, lessEqual, greater, greaterEqual,
    leftParen, rightParen, leftBrace, rightBrace, leftBracket, rightBracket,
    comma, dot, semicolon, colon, identifier, string, number, endOfInput]

/-- The category of a given name. -/
def ofName? (name : String) : Option Kind := all.find? (·.name == name)

/-- The list of categories is complete. -/
theorem mem_all (k : Kind) : k ∈ all := by cases k <;> decide

end Kind

/-- The value of a literal: a number, a text, or nothing. -/
inductive Literal
  | nil
  | text (value : String)
  | number (value : Double)
  deriving DecidableEq, Repr

/-- A token of the source language. -/
structure Token where
  kind : Kind
  lexeme : String
  literal : Literal
  line : Int
  deriving DecidableEq, Repr

namespace Token

/-- A token as it is shown to a reader: its category, its quoted text and its line. -/
def describe (t : Token) : String :=
  "Token(" ++ t.kind.name ++ ", " ++ Text.quoted t.lexeme ++ ", " ++ toString t.line ++ ")"

/-- Whether a token marks the end of the input. -/
def isEnd (t : Token) : Bool := t.kind == .endOfInput

end Token

end Moonbridge
