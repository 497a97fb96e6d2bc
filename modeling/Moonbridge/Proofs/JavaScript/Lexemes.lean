import Mathlib.Data.List.Forall2
import Moonbridge.Proofs.Grammar.Spelled
import Moonbridge.Proofs.JavaScript.Numeral

/-!
# The lexemes of an expression's code

The code of an expression is read as a sequence of lexemes that can be told from the
expression: brackets around operators, a word for each name, and a comma between two items.
This holds in front of every text that an expression can end at. A point is such a text behind
any code but that of a number, and so is what follows the code of an index whose key is written
as a field, unless the key ends with a line break.
-/

namespace Moonbridge

/-- An expression whose code can be read back: all its parts are ones that a source can have,
and no key that is a text and stands in an index ends with a line break. -/
structure Expr.Legible (e : Expr) : Prop where
  spelled : e.Spelled
  safeKeys : ∀ table name, .index table (.literal (.text name)) ∈ e.parts →
    name.toList.getLast? ≠ some '\n'

namespace Expr.Legible

variable {e p : Expr}

/-- The parts of a legible expression are legible. -/
theorem part (h : e.Legible) (hp : p ∈ e.parts) : p.Legible where
  spelled := h.spelled.part hp
  safeKeys table name hindex := h.safeKeys table name (Expr.parts_trans hindex hp)

/-- A legible expression is a regular part of itself. -/
theorem regular (h : e.Legible) : e.Regular := h.spelled e e.mem_parts_self

end Expr.Legible

namespace JavaScript

open Lexeme
open Text (Stops)

section Definition

/-- The lexeme of a literal. -/
def literalLexeme : Literal → Lexeme
  | .nil => .word "null"
  | .text value => .text value
  | .number value => numberLexeme value

/-- What is called, given the lexemes of the callee. -/
def calleeLexemes (callee : Expr) (lexemes : List Lexeme) : List Lexeme :=
  match callee with
  | .name token =>
    if token.lexeme = "print" then [.word "console", .symbol ".", .word "log"] else lexemes
  | _ => lexemes

/-- Lexemes in parentheses. -/
def inParens (lexemes : List Lexeme) : List Lexeme := .symbol "(" :: (lexemes ++ [.symbol ")"])

/-- Lexemes in brackets. -/
def inBrackets (lexemes : List Lexeme) : List Lexeme := .symbol "[" :: (lexemes ++ [.symbol "]"])

/-- The table of an index, given its lexemes. -/
def targetLexemes (table : Expr) (lexemes : List Lexeme) : List Lexeme :=
  match table with
  | .literal (.number _) => inParens lexemes
  | _ => lexemes

/-- The key of an index, given its lexemes. -/
def suffixLexemes (key : Expr) (lexemes : List Lexeme) : List Lexeme :=
  match key with
  | .literal (.text name) =>
    if isPropertyName name then [.symbol ".", .word name] else inBrackets lexemes
  | _ => inBrackets lexemes

/-- The key of a property, given its lexemes. -/
def keyLexemes (key : Expr) (lexemes : List Lexeme) : List Lexeme :=
  match key with
  | .literal _ => lexemes
  | _ => inBrackets lexemes

/-- Items with commas between them. -/
def separated : List (List Lexeme) → List Lexeme
  | [] => []
  | [item] => item
  | item :: next :: items => item ++ .symbol "," :: separated (next :: items)

mutual

/-- The lexemes of an expression's code. -/
def lexemes : Expr → List Lexeme
  | .binary left op right => inParens (lexemes left ++ .symbol op.op.symbol :: lexemes right)
  | .grouping inner => inParens (lexemes inner)
  | .literal value => [literalLexeme value]
  | .unary _ operand => inParens (.symbol "-" :: lexemes operand)
  | .name token => [.word token.lexeme]
  | .assign target value => .word target.lexeme :: .symbol "=" :: lexemes value
  | .call callee _ args =>
    calleeLexemes callee (lexemes callee) ++ inParens (separated (argumentLexemes args))
  | .table entries =>
    if entries.any Entry.isKeyed then
      .symbol "\x7b" :: (separated (propertyLexemes 1 entries) ++ [.symbol "\x7d"])
    else inBrackets (separated (elementLexemes entries))
  | .index table key => targetLexemes table (lexemes table) ++ suffixLexemes key (lexemes key)

/-- The lexemes of each argument. -/
def argumentLexemes : List Expr → List (List Lexeme)
  | [] => []
  | e :: es => lexemes e :: argumentLexemes es

/-- The lexemes of each element of an array. -/
def elementLexemes : List Entry → List (List Lexeme)
  | [] => []
  | .positional value :: es => lexemes value :: elementLexemes es
  | .keyed _ value :: es => lexemes value :: elementLexemes es

/-- The lexemes of each property of an object. -/
def propertyLexemes (next : Nat) : List Entry → List (List Lexeme)
  | [] => []
  | .positional value :: es =>
    (.number (Double.ofRatio next 1) :: .symbol ":" :: lexemes value) ::
      propertyLexemes (next + 1) es
  | .keyed key value :: es =>
    (keyLexemes key (lexemes key) ++ .symbol ":" :: lexemes value) :: propertyLexemes next es

end

end Definition

section Words

/-- The characters of a range are those of a range of codes. -/
theorem between_iff {low high c : Char} :
    (low ≤ c && c ≤ high) = true ↔ low.toNat ≤ c.toNat ∧ c.toNat ≤ high.toNat := by
  simp only [Bool.and_eq_true, decide_eq_true_eq, Char.le_def, UInt32.le_iff_toNat_le, Char.toNat]

/-- A property name starts as a word does. -/
theorem isWordStart_of_isNameStart {c : Char} (h : isNameStart c = true) :
    isWordStart c = true := by
  rw [isWordStart_iff]
  simp only [isNameStart, Bool.or_eq_true, between_iff, beq_iff_eq] at h
  rcases h with ((h | h) | rfl) | rfl
  · exact .inr (.inl h)
  · exact .inl h
  · decide
  · decide

/-- A property name goes on as a word does. -/
theorem isWordPart_of_isNamePart {c : Char} (h : isNamePart c = true) : isWordPart c = true := by
  simp only [isNamePart, Bool.or_eq_true, between_iff] at h
  simp only [isWordPart, Bool.or_eq_true, isDigit_iff]
  exact h.imp isWordStart_of_isNameStart id

/-- The words of a source are words. -/
theorem isWord_of_lexer {text : List Char} (h : Lexer.IsWord text) : IsWord text := by
  have hstart : ∀ c, Lexer.isWordStart c = true → isWordStart c = true := by
    intro c hc
    apply isWordStart_of_isNameStart
    simp only [Lexer.isWordStart, isNameStart, Bool.or_eq_true] at hc ⊢
    exact .inl hc
  have hpart : ∀ c, Lexer.isWordPart c = true → isWordPart c = true := by
    intro c hc
    simp only [Lexer.isWordPart, isWordPart, Bool.or_eq_true, Lexer.isDigit, between_iff,
      isDigit_iff] at hc ⊢
    exact hc.imp (hstart c) id
  obtain ⟨⟨c, hc, hcstart⟩, hparts⟩ := h
  exact ⟨⟨c, hc, hstart c hcstart⟩, fun d hd => hpart d (hparts d hd)⟩

/-- A property name that does not end with a line break is a word. -/
theorem isWord_of_isPropertyName {name : String} (h : isPropertyName name = true)
    (hend : name.toList.getLast? ≠ some '\n') : IsWord name.toList := by
  unfold isPropertyName at h
  split at h
  · cases h
  · rename_i c rest htext
    have hlast : rest.getLast? ≠ some '\n' := by
      intro hbreak
      apply hend
      rw [htext, List.getLast?_cons, hbreak]
      rfl
    rw [if_neg hlast, Bool.and_eq_true, List.all_eq_true] at h
    have hstart := isWordStart_of_isNameStart h.1
    rw [htext]
    refine ⟨⟨c, rfl, hstart⟩, List.forall_mem_cons.mpr ⟨?_, ?_⟩⟩
    · simp [isWordPart, hstart]
    · exact fun d hd => isWordPart_of_isNamePart (h.2 d hd)

end Words

section Code

variable {e : Expr} {rest : List Char}

/-- Whether the code of an expression may end with a numeral. -/
def endsOpen : Expr → Bool
  | .literal (.number _) => true
  | .assign _ _ => true
  | _ => false

/-- What may follow the code of an expression. -/
def Follows (e : Expr) (rest : List Char) : Prop :=
  Ends rest ∨ endsOpen e = false ∧ rest.head? = some '.'

/-- An expression ends in front of each of the characters that stand behind one. -/
theorem ends_cons {c : Char} (h : c ∈ stops) (rest : List Char) : Ends (c :: rest) := by
  intro d hd
  obtain rfl : c = d := by simpa using hd
  exact h

/-- What follows an expression does not continue a word. -/
theorem Follows.isWordPart (h : Follows e rest) : Stops isWordPart rest := by
  rcases h with h | ⟨-, h⟩
  · exact h.isWordPart
  · intro c hc
    obtain rfl : '.' = c := by simpa [h] using hc
    decide

/-- Behind an expression that may end with a numeral, an expression ends. -/
theorem Follows.ends (h : Follows e rest) (he : endsOpen e = true) : Ends rest := by
  rcases h with h | ⟨h, -⟩
  · exact h
  · rw [he] at h
    cases h

/-- A literal is read back as its lexeme. -/
theorem spells_literal {value : Literal} (hvalue : (Expr.literal value).Regular)
    (hrest : Follows (.literal value) rest) :
    Spells (literal value).toList [literalLexeme value] rest := by
  cases value with
  | nil => exact spells_word (isWord_of_all (by decide) (by decide)) hrest.isWordPart
  | text value => exact spells_string value rest
  | number x => exact spells_number hvalue.1 hvalue.2 (hrest.ends rfl)

/-- A piece of code is read as the given lexemes wherever an expression can end. -/
def SpellsItem (code : String) (lexemes : List Lexeme) : Prop :=
  ∀ rest, Ends rest → Spells code.toList lexemes rest

/-- Items are read with the commas between them. -/
theorem spells_separated {codes : List String} {items : List (List Lexeme)}
    (h : List.Forall₂ SpellsItem codes items) (hrest : Ends rest) :
    Spells (", ".intercalate codes).toList (separated items) rest := by
  induction h with
  | nil => exact Spells.nil rest
  | @cons code item codes items hitem hitems ih =>
    cases hitems with
    | nil =>
      rw [String.intercalate_singleton]
      exact hitem rest hrest
    | @cons code' item' codes items hnext hothers =>
      have htext : (", ".intercalate (code :: code' :: codes)).toList =
          code.toList ++ ([','] ++ ([' '] ++ (", ".intercalate (code' :: codes)).toList)) := by
        simp [String.intercalate_cons_cons]
      rw [htext]
      exact (hitem _ (ends_cons (by decide) _)).append
        ((spells_bracket (by decide) _).append ((Spells.space _).append ih))

/-- The method that `print` becomes is read as its three lexemes. -/
theorem spells_consoleLog (rest : List Char) :
    Spells "console.log".toList [.word "console", .symbol ".", .word "log"] ('(' :: rest) := by
  have hparen : Stops isWordPart ('(' :: rest) := (ends_cons (by decide) rest).isWordPart
  have hdot : Stops isWordPart ('.' :: ("log".toList ++ '(' :: rest)) := by
    intro c hc
    obtain rfl : '.' = c := by simpa using hc
    decide
  have hconsole : Spells "console".toList [.word "console"]
      ('.' :: ("log".toList ++ '(' :: rest)) :=
    spells_word (isWord_of_all (by decide) (by decide)) hdot
  have hlog : Spells "log".toList [.word "log"] ('(' :: rest) :=
    spells_word (isWord_of_all (by decide) (by decide)) hparen
  have htext : "console.log".toList = "console".toList ++ (['.'] ++ "log".toList) := by decide
  rw [htext]
  exact hconsole.append ((spells_dot (by decide) _).append hlog)

/-- What is called is read as its lexemes. -/
theorem spells_callee {callee : Expr}
    (h : Spells (expression callee).toList (lexemes callee) ('(' :: rest)) :
    Spells (callTarget callee (expression callee)).toList (calleeLexemes callee (lexemes callee))
      ('(' :: rest) := by
  cases callee with
  | name token =>
    by_cases hprint : token.lexeme = "print"
    · simp only [callTarget, calleeLexemes, if_pos hprint]
      exact spells_consoleLog rest
    · simp only [callTarget, calleeLexemes, if_neg hprint]
      exact h
  | _ => exact h

/-- A key of an index is written as a field or in brackets. -/
theorem suffix_cases (key : Expr) :
    (∃ name, key = .literal (.text name) ∧ isPropertyName name = true) ∨
      ∀ code items, indexSuffix key code = "[" ++ code ++ "]" ∧
        suffixLexemes key items = inBrackets items := by
  cases key with
  | literal value =>
    cases value with
    | text name =>
      by_cases hname : isPropertyName name = true
      · exact .inl ⟨name, rfl, hname⟩
      · refine .inr fun code items => ?_
        simp [indexSuffix, suffixLexemes, hname]
    | _ => exact .inr fun _ _ => ⟨rfl, rfl⟩
  | _ => exact .inr fun _ _ => ⟨rfl, rfl⟩

/-- A table of an index is a number, or is written as it is and a point may follow it. -/
theorem target_cases {table : Expr} (h : table.isAssignment = false) :
    (∃ x, table = .literal (.number x)) ∨ endsOpen table = false ∧
      ∀ code items, indexTarget table code = code ∧ targetLexemes table items = items := by
  cases table with
  | literal value =>
    cases value with
    | number x => exact .inl ⟨x, rfl⟩
    | _ => exact .inr ⟨rfl, fun _ _ => ⟨rfl, rfl⟩⟩
  | assign target value => cases h
  | _ => exact .inr ⟨rfl, fun _ _ => ⟨rfl, rfl⟩⟩

/-- Code in brackets is read as its lexemes in brackets. -/
theorem spells_inBrackets {code : String} {items : List Lexeme}
    (h : Spells code.toList items (']' :: rest)) :
    Spells ("[" ++ code ++ "]").toList (inBrackets items) rest := by
  have htext : ("[" ++ code ++ "]").toList = '[' :: (code.toList ++ [']']) := by simp
  rw [htext]
  exact .enclosed (by decide) (by decide) h

/-- Code in parentheses is read as its lexemes in parentheses. -/
theorem spells_inParens {code : String} {items : List Lexeme}
    (h : Spells code.toList items (')' :: rest)) :
    Spells ("(" ++ code ++ ")").toList (inParens items) rest := by
  have htext : ("(" ++ code ++ ")").toList = '(' :: (code.toList ++ [')']) := by simp
  rw [htext]
  exact .enclosed (by decide) (by decide) h

/-- A field is read as a point and a word. -/
theorem spells_field {name : String} (hname : IsWord name.toList) (hrest : Stops isWordPart rest) :
    Spells ("." ++ name).toList [.symbol ".", .word name] rest := by
  obtain ⟨c, hc, hstart⟩ := hname.start
  have hword : Spells name.toList [.word name] rest := by
    simpa using spells_word hname hrest
  cases htext : name.toList with
  | nil => simp [htext] at hc
  | cons d tail =>
    obtain rfl : d = c := by simpa [htext] using hc
    rw [String.toList_append, htext]
    rw [htext] at hword
    exact (spells_dot hstart _).append hword

/-- The key of an index is read as its lexemes. -/
theorem spells_suffix {table key : Expr} (hindex : (Expr.index table key).Legible)
    (h : Spells (expression key).toList (lexemes key) (']' :: rest))
    (hrest : Stops isWordPart rest) :
    Spells (indexSuffix key (expression key)).toList (suffixLexemes key (lexemes key)) rest := by
  rcases suffix_cases key with ⟨name, rfl, hname⟩ | hbrackets
  · have hend := hindex.safeKeys table name (Expr.mem_parts_self _)
    simp only [indexSuffix, suffixLexemes, if_pos hname]
    exact spells_field (isWord_of_isPropertyName hname hend) hrest
  · rw [(hbrackets _ (lexemes key)).1, (hbrackets "" (lexemes key)).2]
    exact spells_inBrackets h

/-- The table of an index is read as its lexemes in front of a key. -/
theorem spells_target {table : Expr} (htable : table.isAssignment = false)
    (h : ∀ rest, Follows table rest → Spells (expression table).toList (lexemes table) rest)
    (hrest : rest.head? = some '.' ∨ rest.head? = some '[') :
    Spells (indexTarget table (expression table)).toList (targetLexemes table (lexemes table))
      rest := by
  rcases target_cases htable with ⟨x, rfl⟩ | ⟨hopen, hplain⟩
  · exact spells_inParens (h _ (.inl (ends_cons (by decide) rest)))
  · rw [(hplain _ []).1, (hplain "" (lexemes table)).2]
    apply h
    rcases hrest with hdot | hbracket
    · exact .inr ⟨hopen, hdot⟩
    · left
      intro c hc
      obtain rfl : '[' = c := by simpa [hbracket] using hc
      decide

/-- A key of an index starts with a point or a bracket. -/
theorem head_suffix (key : Expr) (code : String) (rest : List Char) :
    ((indexSuffix key code).toList ++ rest).head? = some '.' ∨
      ((indexSuffix key code).toList ++ rest).head? = some '[' := by
  rcases suffix_cases key with ⟨name, rfl, hname⟩ | hbrackets
  · left
    simp [indexSuffix, hname]
  · right
    simp [(hbrackets code []).1]

/-- The key of a property is read as its lexemes. -/
theorem spells_key {key : Expr}
    (h : ∀ rest, Follows key rest → Spells (expression key).toList (lexemes key) rest)
    (rest : List Char) :
    Spells (propertyKey key (expression key)).toList (keyLexemes key (lexemes key))
      (':' :: rest) := by
  cases key with
  | literal value => exact h _ (.inl (ends_cons (by decide) rest))
  | _ => exact spells_inBrackets (h _ (.inl (ends_cons (by decide) _)))

/-- A property is read as its key, a colon and its value. -/
theorem spells_property {key value : String} {keys values : List Lexeme}
    (hkey : Spells key.toList keys (':' :: ' ' :: (value.toList ++ rest)))
    (hvalue : Spells value.toList values rest) :
    Spells (key ++ ": " ++ value).toList (keys ++ .symbol ":" :: values) rest := by
  have htext : (key ++ ": " ++ value).toList =
      key.toList ++ ([':'] ++ ([' '] ++ value.toList)) := by simp
  rw [htext]
  exact hkey.append ((spells_bracket (by decide) _).append ((Spells.space _).append hvalue))

/-- A text that a minus sign does not combine with to a longer symbol. -/
def StartsApart (text : List Char) : Prop := ∃ c ∈ text.head?, c ≠ '-' ∧ c ≠ '='

/-- Whether a text combines with a minus sign in front of it depends on its start only. -/
theorem StartsApart.append {text : List Char} (h : StartsApart text) (rest : List Char) :
    StartsApart (text ++ rest) := by
  obtain ⟨c, hc, hapart⟩ := h
  refine ⟨c, ?_, hapart⟩
  cases text with
  | nil => cases hc
  | cons d tail => exact hc

/-- A word does not combine with a minus sign. -/
theorem startsApart_of_isWordPart {text : List Char} {c : Char} (hc : c ∈ text.head?)
    (h : isWordPart c = true) : StartsApart text := by
  refine ⟨c, hc, ?_, ?_⟩
  · rintro rfl
    exact absurd h (by decide)
  · rintro rfl
    exact absurd h (by decide)

/-- The text of a number that is not negative starts with a digit, or is the name of infinity. -/
theorem head_number {x : Double} (hsign : x.negative = false) (hnan : x.isNaN = false) :
    ∃ c ∈ (number x).toList.head?, c.isDigit = true ∨ c = 'I' := by
  unfold number NumberFormat.write
  simp only [hnan, hsign, Bool.false_eq_true, if_false]
  split
  · exact ⟨'0', rfl, by decide⟩
  · rename_i hzero
    split
    · exact ⟨'I', rfl, by decide⟩
    · have hpos : 0 < x.magnitude.val := by
        simp only [Double.isZero, beq_iff_eq] at hzero
        omega
      obtain ⟨p, htext, -⟩ := lays_number hpos
      obtain ⟨c, tail, hhead, hc⟩ := p.head_text
      rw [String.toList_ofList, ← htext, hhead]
      exact ⟨c, rfl, .inl hc⟩

/-- A number without a sign does not combine with a minus sign. -/
theorem startsApart_number {x : Double} (hsign : x.negative = false) (hnan : x.isNaN = false) :
    StartsApart (number x).toList := by
  obtain ⟨c, hc, hdigit | rfl⟩ := head_number hsign hnan
  · exact startsApart_of_isWordPart hc (by simp [isWordPart, hdigit])
  · exact startsApart_of_isWordPart hc (by decide)

/-- The code of an expression does not combine with a minus sign in front of it. -/
theorem startsApart_expression : ∀ {e : Expr}, e.Legible → StartsApart (expression e).toList
  | .binary left op right, _ => ⟨'(', by simp [expression], by decide⟩
  | .grouping inner, _ => ⟨'(', by simp [expression], by decide⟩
  | .literal .nil, _ => ⟨'n', rfl, by decide⟩
  | .literal (.text value), _ => ⟨'"', by simp [expression, literal, stringLiteral], by decide⟩
  | .literal (.number x), he => startsApart_number he.regular.1 he.regular.2
  | .unary op operand, _ => ⟨'(', by simp [expression], by decide⟩
  | .name token, he => by
    have hword := isWord_of_lexer he.regular
    obtain ⟨c, hc, -⟩ := hword.start
    exact startsApart_of_isWordPart hc (hword.parts c (List.mem_of_mem_head? hc))
  | .assign target value, he => by
    have hword := isWord_of_lexer he.regular
    obtain ⟨c, hc, -⟩ := hword.start
    have hapart := startsApart_of_isWordPart hc (hword.parts c (List.mem_of_mem_head? hc))
    simpa [expression] using hapart.append (' ' :: '=' :: ' ' :: (expression value).toList)
  | .call callee paren args, he => by
    have hcallee := startsApart_expression (he.part (p := callee) (by simp [Expr.parts]))
    have htarget : StartsApart (callTarget callee (expression callee)).toList := by
      unfold callTarget
      split
      · split
        · exact ⟨'c', rfl, by decide⟩
        · exact hcallee
      · exact hcallee
    simpa [expression] using htarget.append
      ('(' :: ((", ".intercalate (expressions args)).toList ++ [')']))
  | .table entries, _ => by
    rw [expression]
    split
    · exact ⟨'\x7b', by simp, by decide⟩
    · exact ⟨'[', by simp, by decide⟩
  | .index table key, he => by
    have htable := startsApart_expression (he.part (p := table) (by simp [Expr.parts]))
    rw [expression, String.toList_append]
    refine StartsApart.append ?_ _
    rcases target_cases he.regular with ⟨x, rfl⟩ | ⟨-, hplain⟩
    · exact ⟨'(', by simp [indexTarget], by decide⟩
    · rw [(hplain _ []).1]
      exact htable

mutual

/-- The code of an expression is read as its lexemes. -/
theorem spells_expression : ∀ (e : Expr), e.Legible → ∀ rest, Follows e rest →
    Spells (expression e).toList (lexemes e) rest
  | .binary left op right, he, rest, hrest => by
    have hleft := spells_expression left (he.part (by simp [Expr.parts]))
    have hright := spells_expression right (he.part (by simp [Expr.parts]))
    have htext : expression (.binary left op right) =
        "(" ++ (expression left ++ " " ++ op.op.symbol ++ " " ++ expression right) ++ ")" := by
      simp [expression, String.append_assoc]
    rw [htext]
    apply spells_inParens
    have hinner : (expression left ++ " " ++ op.op.symbol ++ " " ++ expression right).toList =
        (expression left).toList ++ ([' '] ++ (op.op.symbol.toList ++ ([' '] ++
          (expression right).toList))) := by
      simp
    rw [hinner]
    exact (hleft _ (.inl (ends_cons (by decide) _))).append ((Spells.space _).append
      ((spells_operator op.op _).append ((Spells.space _).append
        (hright _ (.inl (ends_cons (by decide) _))))))
  | .grouping inner, he, rest, hrest => by
    have hinner := spells_expression inner (he.part (by simp [Expr.parts]))
    exact spells_inParens (hinner _ (.inl (ends_cons (by decide) _)))
  | .literal value, he, rest, hrest => spells_literal he.regular hrest
  | .unary op operand, he, rest, hrest => by
    have hlegible := he.part (p := operand) (by simp [Expr.parts])
    have hoperand := spells_expression operand hlegible
    have htext : expression (.unary op operand) = "(" ++ ("-" ++ expression operand) ++ ")" := by
      simp only [expression, he.regular.1, String.append_assoc]
    have hminus : Spells ['-'] [.symbol "-"] ((expression operand).toList ++ ')' :: rest) := by
      obtain ⟨c, hc, hminus, hequals⟩ := startsApart_expression hlegible
      cases hcode : (expression operand).toList with
      | nil => simp [hcode] at hc
      | cons d tail =>
        obtain rfl : d = c := by simpa [hcode] using hc
        exact spells_minus hminus hequals _
    rw [htext]
    apply spells_inParens
    rw [String.toList_append]
    exact hminus.append (hoperand _ (.inl (ends_cons (by decide) rest)))
  | .name token, he, rest, hrest => by
    have hword := spells_word (isWord_of_lexer he.regular) hrest.isWordPart
    simpa [expression, lexemes] using hword
  | .assign target value, he, rest, hrest => by
    have hvalue := spells_expression value (he.part (by simp [Expr.parts]))
    have htext : (expression (.assign target value)).toList = target.lexeme.toList ++ ([' '] ++
        (['='] ++ ([' '] ++ (expression value).toList))) := by
      simp [expression]
    have hword : Spells target.lexeme.toList [.word target.lexeme]
        ([' '] ++ (['='] ++ ([' '] ++ (expression value).toList)) ++ rest) := by
      simpa using spells_word (isWord_of_lexer he.regular) (ends_cons (by decide) _).isWordPart
    rw [htext]
    exact hword.append ((Spells.space _).append ((spells_equals _).append ((Spells.space _).append
      (hvalue _ (.inl (hrest.ends rfl))))))
  | .call callee paren args, he, rest, hrest => by
    have hcallee := spells_expression callee (he.part (by simp [Expr.parts]))
    have hargs := spells_arguments args fun p hp => he.part (by simp [Expr.parts, hp])
    have htext : expression (.call callee paren args) = callTarget callee (expression callee) ++
        ("(" ++ ", ".intercalate (expressions args) ++ ")") := by
      simp [expression, String.append_assoc]
    have hlist := spells_separated hargs (ends_cons (c := ')') (by decide) rest)
    rw [htext, String.toList_append]
    refine Spells.append ?_ (spells_inParens hlist)
    rw [String.toList_append, String.toList_append]
    exact spells_callee (hcallee _ (.inl (ends_cons (by decide) _)))
  | .table entries, he, rest, hrest => by
    have hparts : ∀ p ∈ Entry.partsOfAll entries, p.Legible :=
      fun p hp => he.part (by simp [Expr.parts, hp])
    rw [expression, lexemes]
    split
    · have hlist := spells_separated (spells_properties 1 entries hparts)
        (ends_cons (c := '\x7d') (by decide) rest)
      have htext : ("\x7b" ++ ", ".intercalate (properties 1 entries) ++ "\x7d").toList =
          '\x7b' :: ((", ".intercalate (properties 1 entries)).toList ++ ['\x7d']) := by simp
      rw [htext]
      exact .enclosed (by decide) (by decide) hlist
    · exact spells_inBrackets
        (spells_separated (spells_elements entries hparts) (ends_cons (by decide) rest))
  | .index table key, he, rest, hrest => by
    have htable := spells_expression table (he.part (by simp [Expr.parts]))
    have hkey := spells_expression key (he.part (by simp [Expr.parts]))
    have hsuffix := spells_suffix he (hkey _ (.inl (ends_cons (by decide) rest))) hrest.isWordPart
    rw [expression, lexemes, String.toList_append]
    exact (spells_target he.regular htable (head_suffix _ _ _)).append hsuffix

/-- So are the codes of arguments. -/
theorem spells_arguments : ∀ (es : List Expr), (∀ p ∈ Expr.partsOfAll es, p.Legible) →
    List.Forall₂ SpellsItem (expressions es) (argumentLexemes es)
  | [], _ => .nil
  | e :: es, h => by
    refine .cons ?_ (spells_arguments es fun p hp => h p (by simp [Expr.partsOfAll, hp]))
    exact fun rest hrest =>
      spells_expression e (h e (by simp [Expr.partsOfAll])) rest (.inl hrest)

/-- So are the codes of elements. -/
theorem spells_elements : ∀ (es : List Entry), (∀ p ∈ Entry.partsOfAll es, p.Legible) →
    List.Forall₂ SpellsItem (elements es) (elementLexemes es)
  | [], _ => .nil
  | .positional value :: es, h => by
    refine .cons ?_ (spells_elements es fun p hp => h p (by simp [Entry.partsOfAll, hp]))
    exact fun rest hrest =>
      spells_expression value (h value (by simp [Entry.partsOfAll, Entry.parts])) rest (.inl hrest)
  | .keyed key value :: es, h => by
    refine .cons ?_ (spells_elements es fun p hp => h p (by simp [Entry.partsOfAll, hp]))
    exact fun rest hrest =>
      spells_expression value (h value (by simp [Entry.partsOfAll, Entry.parts])) rest (.inl hrest)

/-- So are the codes of properties. -/
theorem spells_properties : ∀ (next : Nat) (es : List Entry),
    (∀ p ∈ Entry.partsOfAll es, p.Legible) →
      List.Forall₂ SpellsItem (properties next es) (propertyLexemes next es)
  | _, [], _ => .nil
  | next, .positional value :: es, h => by
    have hvalue := spells_expression value (h value (by simp [Entry.partsOfAll, Entry.parts]))
    refine .cons ?_
      (spells_properties (next + 1) es fun p hp => h p (by simp [Entry.partsOfAll, hp]))
    exact fun rest hrest => spells_property
      (spells_position next (ends_cons (by decide) _)) (hvalue rest (.inl hrest))
  | next, .keyed key value :: es, h => by
    have hkey := spells_expression key (h key (by simp [Entry.partsOfAll, Entry.parts]))
    have hvalue := spells_expression value (h value (by simp [Entry.partsOfAll, Entry.parts]))
    refine .cons ?_ (spells_properties next es fun p hp => h p (by simp [Entry.partsOfAll, hp]))
    exact fun rest hrest => spells_property (spells_key hkey _) (hvalue rest (.inl hrest))

end

end Code

end JavaScript

end Moonbridge
