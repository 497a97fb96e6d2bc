import Moonbridge.Number.Decimal

/-!
# A reader of JavaScript expressions

This is the part of the ECMAScript expression grammar that concerns the code of programs.
Assignment binds least, then `||`, `&&`, equality, comparison, sums, products, the minus sign,
and calls and members most. Blanks separate lexemes and are skipped, a symbol is the longest one
that stands at the front, and a number must not run into a word. A field behind a dot is a
member whose key is a text, and parentheses leave no trace. Any name is a word: reserved words
are not told apart. Comments, and what the code of programs has no use for, are refused.
-/

namespace Moonbridge.JavaScript

/-- What was read at the front of an input, if less is left than the whole input: a reader goes
on only behind something. -/
def advance {α β : Type} (input : List α) (result : Option (β × List α)) :
    Option (β × {rest : List α // rest.length < input.length}) := do
  let (value, rest) ← result
  if h : rest.length < input.length then some (value, ⟨rest, h⟩) else none

/-- What is read is kept with the proof that it has shortened the input. -/
theorem advance_some {α β : Type} {input rest : List α} (h : rest.length < input.length)
    (value : β) : advance input (some (value, rest)) = some (value, ⟨rest, h⟩) := by
  simp [advance, h]

/-- The lexemes of an expression. -/
inductive Lexeme
  | word (name : String)
  | number (value : Double)
  | text (value : String)
  | symbol (text : String)
  deriving DecidableEq, Repr

namespace Lexeme

/-- The white space and the line terminators, less a range of spaces. -/
def spaces : List Char :=
  ['\t', '\n', '\x0b', '\x0c', '\r', ' ', '\u00a0', '\u1680', '\u2028', '\u2029', '\u202f',
    '\u205f', '\u3000', '\ufeff']

/-- Whether a character only separates lexemes. -/
def isSpace (c : Char) : Bool := c ∈ spaces || ('\u2000' ≤ c && c ≤ '\u200a')

/-- Whether a character may start a word. -/
def isWordStart (c : Char) : Bool := c.isAlpha || c == '_' || c == '$'

/-- Whether a character may continue a word. -/
def isWordPart (c : Char) : Bool := isWordStart c || c.isDigit

/-- The symbols, longer ones first. Those that open a comment are among them. -/
def symbols : List String :=
  [">>>=", "...", "===", "!==", "**=", "<<=", ">>=", ">>>", "&&=", "||=", "??=", "=>", "==",
    "!=", "<=", ">=", "&&", "||", "??", "?.", "++", "--", "+=", "-=", "*=", "/=", "%=", "&=",
    "|=", "^=", "<<", ">>", "**", "//", "/*", "\x7b", "\x7d", "(", ")", "[", "]", ";", ",", "<",
    ">", "+", "-", "*", "/", "%", "&", "|", "^", "!", "~", "?", ":", "=", "."]

/-- The symbol at the front. -/
def readSymbol (input : List Char) : Option (Lexeme × List Char) := do
  let found ← symbols.find? (·.toList.isPrefixOf input)
  pure (.symbol found, input.drop found.toList.length)

/-- The word at the front. -/
def readWord (input : List Char) : Lexeme × List Char :=
  (.word (String.ofList (input.takeWhile isWordPart)), input.dropWhile isWordPart)

/-- The sign of an exponent. -/
def readSign : List Char → Int × List Char
  | '-' :: rest => (-1, rest)
  | '+' :: rest => (1, rest)
  | rest => (1, rest)

/-- The exponent of a number, where it has one: a letter, a sign and at least one digit. -/
def readExponent (input : List Char) : Option (Int × List Char) :=
  match input with
  | [] => some (0, [])
  | c :: rest =>
    if c = 'e' ∨ c = 'E' then
      let (sign, rest) := readSign rest
      let digits := rest.takeWhile Char.isDigit
      if digits = [] then none
      else some (sign * Decimal.ofDigits digits, rest.dropWhile Char.isDigit)
    else some (0, c :: rest)

/-- The digits behind a point, where there is one. -/
def readFraction : List Char → List Char × List Char
  | '.' :: rest => (rest.takeWhile Char.isDigit, rest.dropWhile Char.isDigit)
  | rest => ([], rest)

/-- The number at the front. A zero is followed by further digits only behind the point, and a
number is followed neither by a digit nor by a word. -/
def readNumber (input : List Char) : Option (Lexeme × List Char) := do
  let whole := input.takeWhile Char.isDigit
  let (fraction, rest) := readFraction (input.dropWhile Char.isDigit)
  let (exponent, rest) ← readExponent rest
  if whole.head? = some '0' ∧ whole ≠ ['0'] then none
  else if rest.head?.any isWordPart then none
  else
    let decimal : Decimal := ⟨Decimal.ofDigits (whole ++ fraction), exponent - fraction.length⟩
    some (.number decimal.toDouble, rest)

/-- The value of a hexadecimal digit. -/
def hexValue (c : Char) : Option Nat :=
  if c.isDigit then some (c.toNat - '0'.toNat)
  else if 'a' ≤ c ∧ c ≤ 'f' then some (c.toNat - 'a'.toNat + 10)
  else if 'A' ≤ c ∧ c ≤ 'F' then some (c.toNat - 'A'.toNat + 10)
  else none

/-- The character of a code that is written with the given number of hexadecimal digits. -/
def readCode (width : Nat) (input : List Char) : Option (Char × List Char) := do
  let values ← (input.take width).mapM hexValue
  let code := values.foldl (fun code value => 16 * code + value) 0
  if values.length = width ∧ code.isValidChar then some (Char.ofNat code, input.drop width)
  else none

/-- The escapes of a single character. -/
def singleEscapes : List (Char × Char) :=
  [('b', '\x08'), ('t', '\t'), ('n', '\n'), ('v', '\x0b'), ('f', '\x0c'), ('r', '\r'),
    ('"', '"'), ('\'', '\''), ('\\', '\\')]

/-- The character that the text behind a backslash stands for. -/
def readEscape (input : List Char) : Option (Char × List Char) :=
  match input with
  | [] => none
  | c :: rest =>
    if c = 'x' then readCode 2 rest
    else if c = 'u' then readCode 4 rest
    else if c = '0' ∧ ¬ rest.head?.any Char.isDigit then some ('\x00', rest)
    else do pure (← singleEscapes.lookup c, rest)

/-- The characters up to the closing quote. A line break has to be escaped. -/
def readString (input : List Char) : Option (List Char × List Char) :=
  match input with
  | [] => none
  | c :: rest =>
    if c = '"' then some ([], rest)
    else if c = '\\' then do
      let (d, ⟨rest, _⟩) ← advance rest (readEscape rest)
      let (value, rest) ← readString rest
      pure (d :: value, rest)
    else if c = '\n' ∨ c = '\r' then none
    else do
      let (value, rest) ← readString rest
      pure (c :: value, rest)
termination_by input.length

/-- The lexeme at the front. -/
def readLexeme (c : Char) (rest : List Char) : Option (Lexeme × List Char) :=
  if isWordStart c then some (readWord (c :: rest))
  else if c.isDigit || (c == '.' && rest.head?.any Char.isDigit) then readNumber (c :: rest)
  else if c = '"' then do
    let (value, rest) ← readString rest
    pure (.text (String.ofList value), rest)
  else readSymbol (c :: rest)

/-- The lexemes of a code. -/
def readAll (input : List Char) : Option (List Lexeme) :=
  match input with
  | [] => some []
  | c :: rest =>
    if isSpace c then readAll rest
    else do
      let (lexeme, ⟨rest, _⟩) ← advance (c :: rest) (readLexeme c rest)
      let others ← readAll rest
      pure (lexeme :: others)
termination_by input.length
decreasing_by all_goals grind

end Lexeme

/-- The binary operations of an expression. -/
inductive Operation
  | or | and | strictlyEqual | strictlyUnequal | looselyEqual | looselyUnequal
  | less | greater | lessEqual | greaterEqual | add | subtract | multiply | divide | remainder
  deriving DecidableEq, Repr

mutual

/-- The tree of an expression. -/
inductive Term
  | word (name : String)
  | number (value : Double)
  | text (value : String)
  | array (elements : List Term)
  | object (properties : List Property)
  | negate (operand : Term)
  | binary (left : Term) (op : Operation) (right : Term)
  | assign (target value : Term)
  | call (callee : Term) (args : List Term)
  | member (table key : Term)

/-- The key of a property: as it is written, or computed by an expression in brackets. -/
inductive Key
  | word (name : String)
  | number (value : Double)
  | text (value : String)
  | computed (key : Term)

/-- A property of an object. -/
inductive Property
  | mk (key : Key) (value : Term)

end

namespace Term

/-- The symbols of the operations of one tier. -/
abbrev Tier := List (String × Operation)

/-- The tiers of operations, the loosest first. -/
def tiers : List Tier :=
  [[("||", .or)], [("&&", .and)],
    [("===", .strictlyEqual), ("!==", .strictlyUnequal), ("==", .looselyEqual),
      ("!=", .looselyUnequal)],
    [("<", .less), (">", .greater), ("<=", .lessEqual), (">=", .greaterEqual)],
    [("+", .add), ("-", .subtract)], [("*", .multiply), ("/", .divide), ("%", .remainder)]]

/-- Whether something can be assigned to. -/
def isTarget : Term → Bool
  | word _ | member _ _ => true
  | _ => false

/-- What stands behind a symbol, if the symbol is at the front. -/
def behind? (symbol : String) (input : List Lexeme) :
    Option {rest : List Lexeme // rest.length < input.length} :=
  match input with
  | .symbol found :: rest => if found = symbol then some ⟨rest, by simp⟩ else none
  | _ => none

/-- The operation at the front, if it belongs to a tier. -/
def operation? (tier : Tier) (input : List Lexeme) :
    Option (Operation × {rest : List Lexeme // rest.length < input.length}) :=
  match input with
  | .symbol found :: rest => (tier.lookup found).map (·, ⟨rest, by simp⟩)
  | _ => none

mutual

/-- An assignment, or an expression without one. -/
def readAssignment (input : List Lexeme) : Option (Term × List Lexeme) := do
  let (target, ⟨rest, _⟩) ← advance input (readTiers tiers input)
  match behind? "=" rest with
  | some ⟨rest, _⟩ =>
    if target.isTarget then
      let (value, rest) ← readAssignment rest
      pure (.assign target value, rest)
    else none
  | none => pure (target, rest)
termination_by (input.length, tiers.length + 4)

/-- Operations of the given tiers. -/
def readTiers (levels : List Tier) (input : List Lexeme) : Option (Term × List Lexeme) :=
  match levels with
  | [] => readUnary input
  | tier :: tighter => do
    let (left, ⟨rest, _⟩) ← advance input (readTiers tighter input)
    readOperations tier tighter left rest
termination_by (input.length, levels.length + 3)

/-- The further operations of a tier, which group from the left. -/
def readOperations (tier : Tier) (tighter : List Tier) (left : Term) (input : List Lexeme) :
    Option (Term × List Lexeme) :=
  match operation? tier input with
  | some (op, ⟨rest, _⟩) => do
    let (right, ⟨rest, _⟩) ← advance rest (readTiers tighter rest)
    readOperations tier tighter (.binary left op right) rest
  | none => some (left, input)
termination_by (input.length, 0)

/-- Minus signs. -/
def readUnary (input : List Lexeme) : Option (Term × List Lexeme) :=
  match behind? "-" input with
  | some ⟨rest, _⟩ => do
    let (operand, rest) ← readUnary rest
    pure (.negate operand, rest)
  | none => readMember input
termination_by (input.length, 2)

/-- Calls and members. -/
def readMember (input : List Lexeme) : Option (Term × List Lexeme) := do
  let (term, ⟨rest, _⟩) ← advance input (readPrimary input)
  readSuffixes term rest
termination_by (input.length, 1)

/-- The arguments and keys behind a term. -/
def readSuffixes (term : Term) (input : List Lexeme) : Option (Term × List Lexeme) :=
  match behind? "(" input, behind? "[" input, behind? "." input with
  | some ⟨rest, _⟩, _, _ => do
    let (args, ⟨rest, _⟩) ← advance rest (readItems ")" rest)
    readSuffixes (.call term args) rest
  | none, some ⟨rest, _⟩, _ => do
    let (key, ⟨rest, _⟩) ← advance rest (readAssignment rest)
    let ⟨rest, _⟩ ← behind? "]" rest
    readSuffixes (.member term key) rest
  | none, none, some ⟨rest, _⟩ =>
    match rest with
    | .word name :: rest => readSuffixes (.member term (.text name)) rest
    | _ => none
  | none, none, none => some (term, input)
termination_by (input.length, 0)
decreasing_by
  all_goals
    apply Prod.Lex.left
    grind

/-- What stands for itself or in brackets. -/
def readPrimary (input : List Lexeme) : Option (Term × List Lexeme) :=
  match input with
  | .word name :: rest => some (.word name, rest)
  | .number value :: rest => some (.number value, rest)
  | .text value :: rest => some (.text value, rest)
  | input =>
    match behind? "(" input, behind? "[" input, behind? "\x7b" input with
    | some ⟨rest, _⟩, _, _ => do
      let (term, rest) ← readAssignment rest
      let ⟨rest, _⟩ ← behind? ")" rest
      pure (term, rest)
    | none, some ⟨rest, _⟩, _ => do
      let (elements, rest) ← readItems "]" rest
      pure (.array elements, rest)
    | none, none, some ⟨rest, _⟩ => do
      let (properties, rest) ← readProperties rest
      pure (.object properties, rest)
    | none, none, none => none
termination_by (input.length, 0)

/-- Expressions with commas behind them up to a closing symbol; the last comma may be left
out. -/
def readItems (closing : String) (input : List Lexeme) : Option (List Term × List Lexeme) :=
  match behind? closing input with
  | some ⟨rest, _⟩ => some ([], rest)
  | none => do
    let (term, ⟨rest, _⟩) ← advance input (readAssignment input)
    match behind? "," rest with
    | some ⟨rest, _⟩ =>
      let (terms, rest) ← readItems closing rest
      pure (term :: terms, rest)
    | none =>
      let ⟨rest, _⟩ ← behind? closing rest
      pure ([term], rest)
termination_by (input.length, tiers.length + 5)

/-- Properties with commas behind them up to the closing brace; the last comma may be left
out. -/
def readProperties (input : List Lexeme) : Option (List Property × List Lexeme) :=
  match behind? "\x7d" input with
  | some ⟨rest, _⟩ => some ([], rest)
  | none => do
    let (key, ⟨rest, _⟩) ← advance input (readKey input)
    let ⟨rest, _⟩ ← behind? ":" rest
    let (value, ⟨rest, _⟩) ← advance rest (readAssignment rest)
    match behind? "," rest with
    | some ⟨rest, _⟩ =>
      let (properties, rest) ← readProperties rest
      pure (.mk key value :: properties, rest)
    | none =>
      let ⟨rest, _⟩ ← behind? "\x7d" rest
      pure ([.mk key value], rest)
termination_by (input.length, 1)

/-- The key of a property. -/
def readKey (input : List Lexeme) : Option (Key × List Lexeme) :=
  match input with
  | .word name :: rest => some (.word name, rest)
  | .number value :: rest => some (.number value, rest)
  | .text value :: rest => some (.text value, rest)
  | input => do
    let ⟨rest, _⟩ ← behind? "[" input
    let (key, rest) ← readAssignment rest
    let ⟨rest, _⟩ ← behind? "]" rest
    pure (.computed key, rest)
termination_by (input.length, 0)

end

end Term

/-- The tree of a code that is one expression. -/
def read (code : String) : Option Term := do
  let lexemes ← Lexeme.readAll code.toList
  let (term, rest) ← Term.readAssignment lexemes
  if rest.isEmpty then some term else none

end Moonbridge.JavaScript
