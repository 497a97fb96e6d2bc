import Moonbridge.JavaScript.Code
import Moonbridge.Proofs.JavaScript.Image
import Moonbridge.Proofs.Text.Numerals

/-!
# Reading the lexemes of a code

A piece of code spells a sequence of lexemes in front of a text if the reader takes them and
goes on with the text. What stands behind the piece matters only where a lexeme could run on:
a word ends where no character of a word follows, a number also ends only where no point
follows, and a symbol is taken as long as possible.
-/

namespace Moonbridge.JavaScript

open Lexeme
open Text (Stops takeWhile_run dropWhile_run)

/-- A piece of code is read as the given lexemes in front of the rest. -/
def Spells (code : List Char) (lexemes : List Lexeme) (rest : List Char) : Prop :=
  readAll (code ++ rest) = (readAll rest).map (lexemes ++ ·)

namespace Spells

variable {code code' rest : List Char} {lexemes lexemes' : List Lexeme}

theorem nil (rest : List Char) : Spells [] [] rest := by
  simp [Spells]

/-- Pieces of code are read one after the other. -/
theorem append (h : Spells code lexemes (code' ++ rest)) (h' : Spells code' lexemes' rest) :
    Spells (code ++ code') (lexemes ++ lexemes') rest := by
  unfold Spells at h h' ⊢
  rw [List.append_assoc, h, h', Option.map_map]
  congr 1
  funext others
  simp

/-- A blank is skipped. -/
theorem space (rest : List Char) : Spells [' '] [] rest := by
  unfold Spells
  rw [List.singleton_append, readAll, if_pos (by decide)]
  simp

/-- A lexeme at the front is read. -/
theorem of_readLexeme {c : Char} {tail : List Char} {lexeme : Lexeme} (hc : isSpace c = false)
    (h : readLexeme c (tail ++ rest) = some (lexeme, rest)) :
    Spells (c :: tail) [lexeme] rest := by
  unfold Spells
  rw [List.cons_append, readAll, if_neg (by simp [hc]), h,
    advance_some (by grind)]
  cases hrest : readAll rest <;> simp [hrest]

end Spells

/-- The characters that are symbols by themselves and start no other symbol. -/
def brackets : List (Char × String) :=
  [('(', "("), (')', ")"), ('[', "["), (']', "]"), ('\x7b', "\x7b"), ('\x7d', "\x7d"),
    (',', ","), (':', ":")]

section Brackets

variable {c d : Char} {opening closing : String} {code rest : List Char} {lexemes : List Lexeme}

/-- A bracket or comma is a symbol by itself, whatever follows. -/
theorem spells_bracket (h : (c, opening) ∈ brackets) (rest : List Char) :
    Spells [c] [.symbol opening] rest := by
  simp only [brackets, List.mem_cons, Prod.mk.injEq, List.not_mem_nil, or_false] at h
  rcases h with ⟨rfl, rfl⟩ | ⟨rfl, rfl⟩ | ⟨rfl, rfl⟩ | ⟨rfl, rfl⟩ | ⟨rfl, rfl⟩ | ⟨rfl, rfl⟩ |
    ⟨rfl, rfl⟩ | ⟨rfl, rfl⟩ <;>
  exact .of_readLexeme (by decide)
    (by simp [readLexeme, readSymbol, symbols, isWordStart, List.isPrefixOf])

/-- What stands between brackets is read between their symbols. -/
theorem Spells.enclosed (hopen : (c, opening) ∈ brackets) (hclose : (d, closing) ∈ brackets)
    (h : Spells code lexemes (d :: rest)) :
    Spells (c :: (code ++ [d])) (.symbol opening :: (lexemes ++ [.symbol closing])) rest :=
  (spells_bracket hopen _).append (h.append (spells_bracket hclose rest))

end Brackets

/-- In front of a blank every operator is taken whole. -/
theorem spells_operator (op : BinaryOp) (rest : List Char) :
    Spells op.symbol.toList [.symbol op.symbol] (' ' :: rest) := by
  cases op <;> simp only [BinaryOp.symbol, String.reduceToList] <;>
    exact .of_readLexeme (by decide)
      (by simp [readLexeme, readSymbol, symbols, isWordStart, List.isPrefixOf])

/-- An equals sign in front of a blank is a symbol by itself. -/
theorem spells_equals (rest : List Char) : Spells ['='] [.symbol "="] (' ' :: rest) :=
  .of_readLexeme (by decide)
    (by simp [readLexeme, readSymbol, symbols, isWordStart, List.isPrefixOf])

/-- A minus sign in front of another one would be part of a longer symbol. -/
theorem spells_minus {c : Char} (hminus : c ≠ '-') (hequals : c ≠ '=') (rest : List Char) :
    Spells ['-'] [.symbol "-"] (c :: rest) := by
  have hminus' : ('-' == c) = false := by simpa using hminus.symm
  have hequals' : ('=' == c) = false := by simpa using hequals.symm
  refine .of_readLexeme (by decide) ?_
  simp [readLexeme, readSymbol, symbols, isWordStart, List.isPrefixOf, hminus', hequals']

section Words

/-- The texts of words. -/
structure IsWord (text : List Char) : Prop where
  start : ∃ c ∈ text.head?, isWordStart c = true
  parts : ∀ c ∈ text, isWordPart c = true

/-- A text can be tested for being a word. -/
theorem isWord_of_all {text : List Char} (hstart : text.head?.any isWordStart = true)
    (hparts : text.all isWordPart = true) : IsWord text :=
  ⟨(Option.any_eq_true _ _).mp hstart, List.all_eq_true.mp hparts⟩

/-- The characters that start a word, by their codes. -/
theorem isWordStart_iff (c : Char) :
    isWordStart c = true ↔ 65 ≤ c.toNat ∧ c.toNat ≤ 90 ∨ 97 ≤ c.toNat ∧ c.toNat ≤ 122 ∨
      c.toNat = 95 ∨ c.toNat = 36 := by
  have hunderscore : c = '_' ↔ c.toNat = 95 := Char.toNat_inj.symm
  have hdollar : c = '$' ↔ c.toNat = 36 := Char.toNat_inj.symm
  have halpha : c.isAlpha =
      (decide ('A'.val ≤ c.val ∧ c.val ≤ 'Z'.val) || ('a'.val ≤ c.val && c.val ≤ 'z'.val)) := rfl
  simp only [isWordStart, halpha, Bool.or_eq_true, Bool.and_eq_true, decide_eq_true_eq,
    beq_iff_eq, hunderscore, hdollar, UInt32.le_iff_toNat_le, Char.toNat]
  simp [or_assoc]

/-- The digits, by their codes. -/
theorem isDigit_iff (c : Char) : c.isDigit = true ↔ 48 ≤ c.toNat ∧ c.toNat ≤ 57 := by
  simp only [Char.isDigit, Bool.and_eq_true, decide_eq_true_eq, UInt32.le_iff_toNat_le,
    ge_iff_le, Char.toNat]
  simp

/-- Blanks lie outside the range of the printed characters of ASCII. -/
theorem isSpace_bounds {c : Char} (h : isSpace c = true) : c.toNat ≤ 32 ∨ 160 ≤ c.toNat := by
  have hlisted : ∀ c ∈ spaces, c.toNat ≤ 32 ∨ 160 ≤ c.toNat := by simp [spaces]
  simp only [isSpace, Bool.or_eq_true, decide_eq_true_eq, Bool.and_eq_true, Char.le_def] at h
  rcases h with h | h
  · exact hlisted c h
  · have hlow := UInt32.le_iff_toNat_le.mp h.1
    change 8192 ≤ c.toNat at hlow
    omega

/-- A point in front of a digit would belong to a number. -/
theorem spells_dot {c : Char} (hc : isWordStart c = true) (rest : List Char) :
    Spells ['.'] [.symbol "."] (c :: rest) := by
  rw [isWordStart_iff] at hc
  have hdigit : c.isDigit = false := by
    have hiff := isDigit_iff c
    cases hd : c.isDigit with
    | false => rfl
    | true => have := hiff.mp hd; omega
  have hdot : ('.' == c) = false := by
    rw [beq_eq_false_iff_ne]
    rintro rfl
    exact absurd hc (by decide)
  refine .of_readLexeme (by decide) ?_
  simp [readLexeme, readSymbol, symbols, isWordStart, List.isPrefixOf, hdigit, hdot]

/-- No character of a word is a blank. -/
theorem isSpace_of_isWordPart {c : Char} (h : isWordPart c = true) : isSpace c = false := by
  cases hspace : isSpace c with
  | false => rfl
  | true =>
    have hbounds := isSpace_bounds hspace
    rw [isWordPart, Bool.or_eq_true, isWordStart_iff, isDigit_iff] at h
    omega

/-- A word is read as long as it goes. -/
theorem spells_word {text rest : List Char} (htext : IsWord text) (hrest : Stops isWordPart rest) :
    Spells text [.word (String.ofList text)] rest := by
  obtain ⟨c, hc, hstart⟩ := htext.start
  cases text with
  | nil => cases hc
  | cons d tail =>
    obtain rfl : d = c := by simpa using hc
    apply Spells.of_readLexeme
    · exact isSpace_of_isWordPart (htext.parts d (by simp))
    · rw [readLexeme, if_pos hstart, readWord, ← List.cons_append,
        takeWhile_run htext.parts hrest, dropWhile_run htext.parts hrest]

end Words

section Strings

/-- Escaping is a matter of each character alone. -/
theorem escapeChars_append (s t : List Char) :
    escapeChars (s ++ t) = escapeChars s ++ escapeChars t := by
  unfold escapeChars
  induction escapes generalizing s t with
  | nil => rfl
  | cons e es ih => rw [List.foldl_cons, List.foldl_cons, List.foldl_cons, replace_append, ih]

/-- A character that needs no escape stands for itself. -/
theorem escapeChars_other {c : Char} (h : ∀ e ∈ escapes, c ≠ e.1) : escapeChars [c] = [c] := by
  unfold escapeChars
  generalize escapes = es at h
  induction es with
  | nil => rfl
  | cons e es ih =>
    simp only [List.mem_cons, forall_eq_or_imp] at h
    have hreplace : replace e.1 e.2 [c] = [c] := by simp [replace, h.1]
    rw [List.foldl_cons, hreplace]
    exact ih h.2

/-- A listed character is escaped as the list says. -/
theorem escapeChars_of_mem {e : Char × List Char} (h : e ∈ escapes) : escapeChars [e.1] = e.2 := by
  have hall : ∀ e ∈ escapes, escapeChars [e.1] = e.2 := by decide
  exact hall e h

/-- The characters that open an escape, close a literal or end a line. -/
def literalMarks : List Char := ['"', '\\', '\n', '\r', '\u2028', '\u2029']

/-- A character has an escape, or it stands for itself and means nothing special in a literal. -/
theorem escapeChars_cases (c : Char) :
    (∃ e ∈ escapes, c = e.1 ∧ escapeChars [c] = e.2) ∨
      (escapeChars [c] = [c] ∧ c ∉ literalMarks) := by
  by_cases hescaped : ∃ e ∈ escapes, c = e.1
  · obtain ⟨e, he, rfl⟩ := hescaped
    exact .inl ⟨e, he, rfl, escapeChars_of_mem he⟩
  · have hother : ∀ e ∈ escapes, c ≠ e.1 := fun e he hc => hescaped ⟨e, he, hc⟩
    have hmarks : ∀ mark ∈ literalMarks, ∃ e ∈ escapes, mark = e.1 := by
      simp [literalMarks, escapes]
    exact .inr ⟨escapeChars_other hother, fun hc => hescaped (hmarks c hc)⟩

/-- Every escape is a backslash and a text that is read as the escaped character. -/
theorem readEscape_of_mem {e : Char × List Char} (h : e ∈ escapes) :
    ∃ code, e.2 = '\\' :: code ∧ 0 < code.length ∧
      ∀ rest, readEscape (code ++ rest) = some (e.1, rest) := by
  simp only [escapes, List.mem_cons, List.not_mem_nil, or_false] at h
  rcases h with rfl | rfl | rfl | rfl | rfl | rfl | rfl | rfl | rfl | rfl <;>
    exact ⟨_, rfl, by decide, fun rest => by
      simp [readEscape, readCode, hexValue, singleEscapes, Char.isDigit, List.lookup_cons,
        Nat.isValidChar]⟩

/-- An escaped character is read as the character. -/
theorem readString_escaped (c : Char) (rest : List Char) :
    readString (escapeChars [c] ++ rest) = (readString rest).map fun r => (c :: r.1, r.2) := by
  obtain ⟨e, he, rfl, hchars⟩ | ⟨hchars, hmarks⟩ := escapeChars_cases c
  · obtain ⟨code, hcode, hpos, hread⟩ := readEscape_of_mem he
    rw [hchars, hcode, List.cons_append, readString, if_neg (by decide), if_pos rfl, hread,
      advance_some (by simp [hpos])]
    cases hrest : readString rest <;> simp [hrest]
  · simp only [literalMarks, List.mem_cons, not_or] at hmarks
    rw [hchars, List.singleton_append, readString, if_neg hmarks.1, if_neg hmarks.2.1,
      if_neg (by simp [hmarks])]
    cases readString rest <;> rfl

/-- A literal is read back up to its closing quote, escapes included. -/
theorem readString_literal (value rest : List Char) :
    readString (escapeChars value ++ '"' :: rest) = some (value, rest) := by
  induction value with
  | nil =>
    rw [show escapeChars [] = [] from rfl, List.nil_append, readString, if_pos rfl]
  | cons c value ih =>
    rw [← List.singleton_append, escapeChars_append, List.append_assoc, readString_escaped, ih]
    rfl

/-- A literal is read back as its value, whatever follows. -/
theorem spells_string (value : String) (rest : List Char) :
    Spells (stringLiteral value).toList [.text value] rest := by
  have hchars : (stringLiteral value).toList = '"' :: (escapeChars value.toList ++ ['"']) := by
    simp [stringLiteral, escape]
  rw [hchars]
  apply Spells.of_readLexeme (by decide)
  rw [readLexeme, if_neg (by decide), if_neg (by simp), if_pos rfl, List.append_assoc,
    List.singleton_append, readString_literal]
  simp

end Strings

end Moonbridge.JavaScript
