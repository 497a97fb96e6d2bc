import Moonbridge.Number.Decimal
import Moonbridge.Token.Basic

/-!
# Reading tokens

The source is read from left to right. Between tokens stand gaps: blanks, line breaks and
comments, which run from two hyphens up to the end of their line. Each token takes the
longest text of its category that stands at the front of the rest. A category and a text
determine the value of a literal, and a token's line counts the line breaks before it.
-/

namespace Moonbridge

namespace Lexer

/-- Whether a character is a decimal digit. -/
def isDigit (c : Char) : Bool := '0' ≤ c && c ≤ '9'

/-- Whether a character may start a word. -/
def isWordStart (c : Char) : Bool :=
  ('a' ≤ c && c ≤ 'z') || ('A' ≤ c && c ≤ 'Z') || c == '_'

/-- Whether a character may continue a word. -/
def isWordPart (c : Char) : Bool := isWordStart c || isDigit c

/-- Whether a character separates tokens within a line. -/
def isBlank (c : Char) : Bool := c == ' ' || c == '\t' || c == '\r'

/-- The words that are no identifiers. -/
def keywords : List (String × Kind) :=
  [("function", .functionKeyword), ("local", .localKeyword), ("if", .ifKeyword),
    ("then", .thenKeyword), ("else", .elseKeyword), ("end", .endKeyword),
    ("while", .whileKeyword), ("do", .doKeyword), ("return", .returnKeyword),
    ("and", .andKeyword), ("or", .orKeyword), ("nil", .nilKeyword)]

/-- The characters that are tokens by themselves. -/
def punctuation : List (Char × Kind) :=
  [('(', .leftParen), (')', .rightParen), ('\x7b', .leftBrace), ('\x7d', .rightBrace),
    ('[', .leftBracket), (']', .rightBracket), (',', .comma), ('.', .dot),
    (';', .semicolon), (':', .colon), ('+', .plus), ('-', .minus), ('*', .star),
    ('/', .slash)]

/-- The characters that an equals sign may extend: the category of the character alone,
where it has one, and that of the pair. -/
def extensible : List (Char × Option Kind × Kind) :=
  [('=', some .assign, .equal), ('<', some .less, .lessEqual),
    ('>', some .greater, .greaterEqual), ('!', none, .notEqual)]

/-- The category of a whole word. -/
def wordKind (word : List Char) : Kind :=
  (keywords.lookup (String.ofList word)).getD .identifier

/-- What can be wrong with a source. -/
inductive Problem
  | unterminatedString
  | unexpected (character : Char)
  deriving DecidableEq, Repr

/-- A token's category and text, and the source behind it. -/
structure Cut where
  kind : Kind
  text : List Char
  rest : List Char
  deriving DecidableEq, Repr

/-- A string runs up to the next double quote, over line breaks too. -/
def cutString (rest : List Char) : Except Problem Cut :=
  match rest.dropWhile (· != '"') with
  | [] => .error .unterminatedString
  | _ :: after => .ok ⟨.string, '"' :: rest.takeWhile (· != '"') ++ ['"'], after⟩

/-- A number is a run of digits, and a point with a further run if a digit follows it. -/
def cutNumber (input : List Char) : Cut :=
  let whole := input.takeWhile isDigit
  let after := input.dropWhile isDigit
  match after with
  | '.' :: d :: rest =>
    if isDigit d then
      ⟨.number, whole ++ '.' :: d :: rest.takeWhile isDigit, rest.dropWhile isDigit⟩
    else ⟨.number, whole, after⟩
  | _ => ⟨.number, whole, after⟩

/-- A word is a keyword only as a whole. -/
def cutWord (input : List Char) : Cut :=
  let word := input.takeWhile isWordPart
  ⟨wordKind word, word, input.dropWhile isWordPart⟩

/-- A character that an equals sign extends if one follows. -/
def cutExtensible (c : Char) (alone : Option Kind) (pair : Kind) (rest : List Char) :
    Except Problem Cut :=
  match rest, alone with
  | '=' :: after, _ => .ok ⟨pair, [c, '='], after⟩
  | _, some kind => .ok ⟨kind, [c], rest⟩
  | _, none => .error (.unexpected c)

/-- The token at the front of a source that does not start with a gap. -/
def cut (c : Char) (rest : List Char) : Except Problem Cut :=
  if c = '"' then cutString rest
  else if isDigit c then .ok (cutNumber (c :: rest))
  else if isWordStart c then .ok (cutWord (c :: rest))
  else
    match extensible.lookup c with
    | some (alone, pair) => cutExtensible c alone pair rest
    | none =>
      match punctuation.lookup c with
      | some kind => .ok ⟨kind, [c], rest⟩
      | none => .error (.unexpected c)

/-- The decimal that the text of a number writes. -/
def numeral (text : List Char) : Decimal :=
  .ofNumeral (text.takeWhile isDigit) ((text.dropWhile isDigit).drop 1)

/-- The value that a category and a text determine. -/
def literal (kind : Kind) (text : List Char) : Literal :=
  match kind with
  | .string => .text (String.ofList (text.drop 1).dropLast)
  | .number => .number (numeral text).toDouble
  | _ => .nil

/-- The token of a cut that starts on a given line. -/
def Cut.token (t : Cut) (line : Nat) : Token :=
  ⟨t.kind, String.ofList t.text, literal t.kind t.text, line⟩

/-- The rest behind a string is shorter than the text behind its first quote. -/
theorem cutString_shorter {rest : List Char} {t : Cut} (h : cutString rest = .ok t) :
    t.rest.length < rest.length := by
  unfold cutString at h
  have hle := List.IsSuffix.length_le (List.dropWhile_suffix (l := rest) (· != '"'))
  split at h
  · cases h
  · rename_i heq
    cases h
    simpa [heq, Nat.succ_le_iff] using hle

/-- A number takes at least its first digit. -/
theorem cutNumber_shorter {c : Char} (hc : isDigit c = true) (rest : List Char) :
    (cutNumber (c :: rest)).rest.length ≤ rest.length := by
  have hle := List.IsSuffix.length_le (List.dropWhile_suffix (l := rest) isDigit)
  unfold cutNumber
  simp only [List.dropWhile_cons, hc, if_true]
  split
  · rename_i d after heq
    have hd := List.IsSuffix.length_le (List.dropWhile_suffix (l := after) isDigit)
    simp only [heq, List.length_cons] at hle
    split
    · simp only []; omega
    · simp only [heq, List.length_cons]; omega
  · simpa using hle

/-- A word takes at least its first character. -/
theorem cutWord_shorter {c : Char} (hc : isWordStart c = true) (rest : List Char) :
    (cutWord (c :: rest)).rest.length ≤ rest.length := by
  have hp : isWordPart c = true := by simp [isWordPart, hc]
  simpa [cutWord, hp] using List.IsSuffix.length_le (List.dropWhile_suffix (l := rest) isWordPart)

/-- A sign takes at least its first character, whether or not a second one belongs to it. -/
theorem cutExtensible_shorter {c : Char} {alone : Option Kind} {pair : Kind} {rest : List Char}
    {t : Cut} (h : cutExtensible c alone pair rest = .ok t) : t.rest.length ≤ rest.length := by
  unfold cutExtensible at h
  split at h
  · cases h; simp
  · cases h; simp
  · cases h

/-- A string and the rest make up the text from its first quote on. -/
theorem cutString_text {rest : List Char} {t : Cut} (h : cutString rest = .ok t) :
    t.text ++ t.rest = '"' :: rest := by
  unfold cutString at h
  have hsplit := List.takeWhile_append_dropWhile (p := (· != '"')) (l := rest)
  split at h
  · cases h
  · rename_i q after heq
    have hq : q = '"' := by
      have hne : rest.dropWhile (· != '"') ≠ [] := by simp [heq]
      have hnot := List.head_dropWhile_not (· != '"') hne
      simpa [heq] using hnot
    cases h
    rw [heq, hq] at hsplit
    simpa using hsplit

/-- A number and the rest make up the text. -/
theorem cutNumber_text (input : List Char) :
    (cutNumber input).text ++ (cutNumber input).rest = input := by
  have hsplit := List.takeWhile_append_dropWhile (p := isDigit) (l := input)
  unfold cutNumber
  simp only []
  split
  · rename_i d rest heq
    have hrest := List.takeWhile_append_dropWhile (p := isDigit) (l := rest)
    split
    · rw [heq] at hsplit
      simpa [hrest] using hsplit
    · exact hsplit
  · exact hsplit

/-- A sign and the rest make up the text. -/
theorem cutExtensible_text {c : Char} {alone : Option Kind} {pair : Kind} {rest : List Char}
    {t : Cut} (h : cutExtensible c alone pair rest = .ok t) : t.text ++ t.rest = c :: rest := by
  unfold cutExtensible at h
  split at h
  · cases h; rfl
  · cases h; rfl
  · cases h

/-- Nothing is lost: a token's text and the source behind it make up the source. -/
theorem cut_text {c : Char} {rest : List Char} {t : Cut} (h : cut c rest = .ok t) :
    t.text ++ t.rest = c :: rest := by
  unfold cut at h
  split at h
  · rename_i hc; subst hc; exact cutString_text h
  · split at h
    · cases h; exact cutNumber_text (c :: rest)
    · split at h
      · cases h; exact List.takeWhile_append_dropWhile
      · split at h
        · exact cutExtensible_text h
        · split at h
          · cases h; rfl
          · cases h

/-- A token takes at least the character it starts with. -/
theorem cut_shorter {c : Char} {rest : List Char} {t : Cut} (h : cut c rest = .ok t) :
    t.rest.length ≤ rest.length := by
  unfold cut at h
  split at h
  · exact Nat.le_of_lt (cutString_shorter h)
  · split at h
    · rename_i hd; cases h; exact cutNumber_shorter hd rest
    · split at h
      · rename_i hw; cases h; exact cutWord_shorter hw rest
      · split at h
        · exact cutExtensible_shorter h
        · split at h
          · cases h; exact Nat.le_refl _
          · cases h

end Lexer

/-- A fault in a source and the line it stands on. -/
structure LexError where
  problem : Lexer.Problem
  line : Nat
  deriving DecidableEq, Repr

namespace LexError

/-- The character that a fault points at. -/
def character (e : LexError) : Char :=
  match e.problem with
  | .unterminatedString => '"'
  | .unexpected c => c

/-- What is wrong, without the place. -/
def reason (e : LexError) : String :=
  match e.problem with
  | .unterminatedString => "unterminated string"
  | .unexpected c => "unexpected character " ++ Text.quoted (String.singleton c)

/-- What is wrong, and where. -/
def message (e : LexError) : String := e.reason ++ " at line " ++ toString e.line

end LexError

namespace Lexer

/-- Reads the rest of a source that starts on the given line; `done` holds the tokens read
so far, the latest first. -/
def scan (line : Nat) (input : List Char) (done : List Token) : Except LexError (List Token) :=
  match input with
  | [] => .ok (⟨.endOfInput, "", .nil, line⟩ :: done).reverse
  | c :: rest =>
    if c = '\n' then scan (line + 1) rest done
    else if isBlank c then scan line rest done
    else if c = '-' ∧ rest.head? = some '-' then scan line (rest.dropWhile (· != '\n')) done
    else
      match _taken : cut c rest with
      | .error problem => .error ⟨problem, line⟩
      | .ok t => scan (line + t.text.count '\n') t.rest (t.token line :: done)
termination_by input.length
decreasing_by
  · simp
  · simp
  · have := List.IsSuffix.length_le (List.dropWhile_suffix (l := rest) (· != '\n'))
    simp only [List.length_cons]; omega
  · have := cut_shorter ‹cut c rest = .ok t›
    simp only [List.length_cons]; omega

end Lexer

/-- The tokens of a source, up to and including the one that marks its end. -/
def tokenize (source : String) : Except LexError (List Token) :=
  Lexer.scan 1 source.toList []

end Moonbridge
