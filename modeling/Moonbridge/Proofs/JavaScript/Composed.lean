import Mathlib.Tactic.MkIffOfInductiveProp
import Moonbridge.Proofs.JavaScript.Lexemes
import Moonbridge.Proofs.JavaScript.StringLiteral
import Moonbridge.Proofs.Parser.Sources

/-!
# Properties of composed code

The code of an expression is composed of plain texts, which have no brackets, no quotes and no ends
of lines, of string literals, and of code in brackets. A property that passes through these
compositions holds of the code of every expression. Only the names behind points are left to look
at, because one of them may end with a line break. The heads of functions, conditionals and loops
are composed in the same way.
-/

namespace Moonbridge

namespace JavaScript

/-- The brackets of code, each with the one that closes it. -/
def bracketPairs : List (String × String) := [("(", ")"), ("[", "]"), ("\x7b", "\x7d")]

/-- The characters that delimit pieces of code: brackets, quotes and the ends of lines. -/
def delimiters : List Char :=
  ['(', ')', '[', ']', '\x7b', '\x7d', '"'] ++ StringLiteral.lineTerminators

/-- A text that no delimiter occurs in. -/
def Plain (code : String) : Prop := ∀ c ∈ code.toList, c ∉ delimiters

/-- Whether a text is plain is decided on its characters. -/
instance (code : String) : Decidable (Plain code) :=
  List.decidableBAll (· ∉ delimiters) code.toList

/-- A text that neither a delimiter nor a blank occurs in. -/
def Unbroken (code : String) : Prop :=
  ∀ c ∈ code.toList, c ∉ delimiters ∧ Lexeme.isSpace c = false

/-- Whether a text is unbroken is decided on its characters. -/
instance (code : String) : Decidable (Unbroken code) :=
  List.decidableBAll (fun c => c ∉ delimiters ∧ Lexeme.isSpace c = false) code.toList

/-- A plain text of signs, and blanks around them, which keeps the words on its sides apart. -/
def Separates (code : String) : Prop :=
  Plain code ∧ (∀ c ∈ code.toList, Lexeme.isWordPart c = false) ∧
    ∃ c ∈ code.toList, Lexeme.isSpace c = false

/-- Whether a text separates words is decided on its characters. -/
instance (code : String) : Decidable (Separates code) :=
  haveI := List.decidableBAll (Lexeme.isWordPart · = false) code.toList
  haveI := List.decidableBEx (Lexeme.isSpace · = false) code.toList
  inferInstanceAs (Decidable (Plain code ∧ (∀ c ∈ code.toList, Lexeme.isWordPart c = false) ∧
    ∃ c ∈ code.toList, Lexeme.isSpace c = false))

/-- A property of texts that passes from pieces of code to what an expression makes of them: two
pieces with signs between them, and a piece in brackets behind another one. -/
structure Joinable (P : String → Prop) : Prop where
  unbroken {code : String} : Unbroken code → P code
  joined {code between code' : String} : Separates between → P code → P code' →
    P (code ++ between ++ code')
  enclosed {opening closing code inner : String} : (opening, closing) ∈ bracketPairs → P code →
    P inner → P (code ++ opening ++ inner ++ closing)
  quoted (value : String) : P (stringLiteral value)

/-- A property of texts that passes from pieces of code to what is composed of them. -/
structure Composable (P : String → Prop) : Prop where
  plain {code : String} : Plain code → P code
  append {code code' : String} : P code → P code' → P (code ++ code')
  enclosed {opening closing code : String} : (opening, closing) ∈ bracketPairs → P code →
    P (opening ++ code ++ closing)
  quoted (value : String) : P (stringLiteral value)

end JavaScript

open JavaScript (isPropertyName)

/-- An expression of a source whose names behind points have a property. -/
structure Expr.Writes (P : String → Prop) (e : Expr) : Prop where
  spelled : e.Spelled
  fields : ∀ table name, .index table (.literal (.text name)) ∈ e.parts →
    isPropertyName name = true → P name

/-- A statement of such expressions, whose declared names are words. -/
@[mk_iff]
structure Stmt.Writes (P : String → Prop) (s : Stmt) : Prop where
  expressions : ∀ e ∈ s.expressions, e.Writes P
  names : ∀ t ∈ s.names, Lexer.IsWord t.lexeme.toList

/-- Whether a statement has no body. -/
def Stmt.isSimple : Stmt → Bool
  | .expression _ | .returned _ _ | .declared _ _ => true
  | _ => false

section Writes

variable {P : String → Prop} {e p cond : Expr} {s t : Stmt} {ss : List Stmt} {token : Token}

/-- The parts of such an expression are such expressions. -/
theorem Expr.Writes.part (h : e.Writes P) (hp : p ∈ e.parts) : p.Writes P where
  spelled := h.spelled.part hp
  fields table name hindex := h.fields table name (Expr.parts_trans hindex hp)

/-- An expression of a source is a regular part of itself. -/
theorem Expr.Writes.regular (h : e.Writes P) : e.Regular := h.spelled e e.mem_parts_self

namespace Stmt

/-- Statements are looked at one by one. -/
theorem forall_writes_iff : (∀ s ∈ ss, s.Writes P) ↔
    (∀ e ∈ Stmt.expressionsOfAll ss, e.Writes P) ∧
      ∀ t ∈ Stmt.namesOfAll ss, Lexer.IsWord t.lexeme.toList := by
  rw [forall_expressionsOfAll, forall_namesOfAll]
  constructor
  · intro h
    exact ⟨fun s hs => (h s hs).expressions, fun s hs => (h s hs).names⟩
  · intro h s hs
    exact ⟨h.1 s hs, h.2 s hs⟩

@[simp] theorem writes_expression : (expression e).Writes P ↔ e.Writes P := by
  simp [writes_iff, expressions, names]

@[simp] theorem writes_function {params : List Token} : (function token params ss).Writes P ↔
    Lexer.IsWord token.lexeme.toList ∧ (∀ t ∈ params, Lexer.IsWord t.lexeme.toList) ∧
      ∀ s ∈ ss, s.Writes P := by
  rw [forall_writes_iff]
  simp only [writes_iff, expressions, names, List.forall_mem_cons, List.forall_mem_append]
  tauto

@[simp] theorem writes_conditional : (conditional cond s none).Writes P ↔
    cond.Writes P ∧ s.Writes P := by
  simp [writes_iff, expressions, names, and_assoc]

@[simp] theorem writes_conditional_else : (conditional cond s (some t)).Writes P ↔
    cond.Writes P ∧ s.Writes P ∧ t.Writes P := by
  simp only [writes_iff, expressions, names, List.forall_mem_cons, List.forall_mem_append]
  tauto

@[simp] theorem writes_returned {value : Option Expr} : (returned token value).Writes P ↔
    ∀ e ∈ value, e.Writes P := by
  simp [writes_iff, expressions, names]

@[simp] theorem writes_declared {value : Option Expr} : (declared token value).Writes P ↔
    Lexer.IsWord token.lexeme.toList ∧ ∀ e ∈ value, e.Writes P := by
  simp [writes_iff, expressions, names, and_comm]

@[simp] theorem writes_loop : (loop cond s).Writes P ↔ cond.Writes P ∧ s.Writes P := by
  simp [writes_iff, expressions, names, and_assoc]

@[simp] theorem writes_block : (block ss).Writes P ↔ ∀ s ∈ ss, s.Writes P := by
  rw [forall_writes_iff]
  simp [writes_iff, expressions, names]

end Stmt

/-- The statements of a source's program are composed of words and of expressions of a source. -/
theorem writes_of_programOf {source : String} {program : Program}
    (h : programOf source = .ok program)
    (hfields : ∀ table name, .index table (.literal (.text name)) ∈ Program.parts program →
      isPropertyName name = true → P name) : ∀ s ∈ program, s.Writes P := by
  rw [Stmt.forall_writes_iff]
  refine ⟨fun e he => ?_, fun t ht => isWord_of_programOf h ht⟩
  have hparts : ∀ p ∈ e.parts, p ∈ Program.parts program :=
    fun p hp => List.mem_flatMap.mpr ⟨e, he, hp⟩
  exact ⟨spelled_of_programOf h (hparts e e.mem_parts_self),
    fun table name hindex => hfields table name (hparts _ hindex)⟩

end Writes

namespace JavaScript

open Lexeme Numeral

section Plain

variable {code : String}

/-- No delimiter is part of a word. -/
theorem notMem_delimiters_of_isWordPart {c : Char} (h : isWordPart c = true) :
    c ∉ delimiters := by
  have hall : ∀ c ∈ delimiters, isWordPart c = false := by
    simp [delimiters, StringLiteral.lineTerminators, isWordPart, isWordStart]
  intro hc
  rw [hall c hc] at h
  cases h

/-- A word holds no delimiter. -/
theorem plain_of_isWord (h : IsWord code.toList) : Plain code :=
  fun c hc => notMem_delimiters_of_isWordPart (h.parts c hc)

/-- A text without delimiters and blanks is one without delimiters. -/
theorem Unbroken.plain (h : Unbroken code) : Plain code := fun c hc => (h c hc).1

/-- A word holds neither a delimiter nor a blank. -/
theorem unbroken_of_isWord (h : IsWord code.toList) : Unbroken code :=
  fun c hc => ⟨notMem_delimiters_of_isWordPart (h.parts c hc),
    isSpace_of_isWordPart (h.parts c hc)⟩

/-- The symbol of an operator and the blanks around it keep words apart. -/
theorem separates_operator (op : BinaryOp) : Separates (" " ++ op.symbol ++ " ") := by
  cases op <;> decide

/-- A written number consists of digits, points, signs and the letters of exponents. -/
theorem mem_of_parts (p : Parts) :
    ∀ c ∈ p.text, isWordPart c = true ∨ c ∈ ['.', '+', '-'] := by
  have hdigits : ∀ {text}, Digits text →
      ∀ c ∈ text, isWordPart c = true ∨ c ∈ ['.', '+', '-'] :=
    fun h c hc => .inl (by simp [isWordPart, h.isDigit c hc])
  have hmark : ∀ mark ∈ ['e', 'E'], isWordPart mark = true ∨ mark ∈ ['.', '+', '-'] := by
    simp [isWordPart, isWordStart]
  obtain ⟨whole, fraction, digits, exponent, power, isWhole, isFraction, isExponent⟩ := p
  have hfraction : ∀ c ∈ fraction, isWordPart c = true ∨ c ∈ ['.', '+', '-'] := by
    cases isFraction with
    | none => simp
    | point isDigits => exact List.forall_mem_cons.mpr ⟨by decide, hdigits isDigits⟩
  have hexponent : ∀ c ∈ exponent, isWordPart c = true ∨ c ∈ ['.', '+', '-'] := by
    cases isExponent with
    | none => simp
    | bare isMark isDigits =>
      exact List.forall_mem_cons.mpr ⟨hmark _ isMark, hdigits isDigits⟩
    | plus isMark isDigits | minus isMark isDigits =>
      exact List.forall_mem_cons.mpr ⟨hmark _ isMark,
        List.forall_mem_cons.mpr ⟨by decide, hdigits isDigits⟩⟩
  rw [Parts.text, List.forall_mem_append, List.forall_mem_append]
  exact ⟨⟨hdigits isWhole.toDigits, hfraction⟩, hexponent⟩

/-- A number as it is written holds neither a delimiter nor a blank. -/
theorem unbroken_of_parts (p : Parts) : Unbroken (String.ofList p.text) := by
  intro c hc
  rw [String.toList_ofList] at hc
  rcases mem_of_parts p c hc with hword | hsign
  · exact ⟨notMem_delimiters_of_isWordPart hword, isSpace_of_isWordPart hword⟩
  · have hall : Unbroken ".+-" := by decide
    exact hall c (by simpa using hsign)

/-- A natural number in decimal holds neither a delimiter nor a blank. -/
theorem unbroken_toString (n : Nat) : Unbroken (toString n) := by
  intro c hc
  rw [Nat.toString_eq_repr, Nat.toList_repr] at hc
  have hword : isWordPart c = true := by simp [isWordPart, Text.isDigit_of_mem_toDigits hc]
  exact ⟨notMem_delimiters_of_isWordPart hword, isSpace_of_isWordPart hword⟩

/-- The code of a number without a sign holds neither a delimiter nor a blank. -/
theorem unbroken_number {x : Double} (hsign : x.negative = false) (hnan : x.isNaN = false) :
    Unbroken (number x) := by
  unfold number NumberFormat.write
  simp only [hnan, hsign, Bool.false_eq_true, if_false]
  split
  · decide
  · rename_i hzero
    split
    · decide
    · have hpos : 0 < x.magnitude.val := by
        simp only [Double.isZero, beq_iff_eq] at hzero
        omega
      obtain ⟨p, htext, -⟩ := lays_number hpos
      rw [← htext]
      exact unbroken_of_parts p

end Plain

namespace Joinable

variable {P : String → Prop} {code inner opening closing : String}

/-- A piece of code in brackets. -/
theorem bracketed (h : Joinable P) (hpair : (opening, closing) ∈ bracketPairs)
    (hinner : P inner) : P (opening ++ inner ++ closing) := by
  have hempty : P "" := h.unbroken (by decide)
  simpa only [String.empty_append] using h.enclosed hpair hempty hinner

/-- A property that passes to brackets passes to parentheses around a piece. -/
theorem inParens (h : Joinable P) (hcode : P code) : P ("(" ++ code ++ ")") :=
  h.bracketed (by decide) hcode

/-- It passes to square brackets around a piece. -/
theorem inBrackets (h : Joinable P) (hcode : P code) : P ("[" ++ code ++ "]") :=
  h.bracketed (by decide) hcode

/-- Pieces of code with commas between them. -/
theorem listed (h : Joinable P) {codes : List String} (hcodes : ∀ code ∈ codes, P code) :
    P (", ".intercalate codes) := by
  induction codes with
  | nil =>
    rw [String.intercalate_nil]
    exact h.unbroken (by decide)
  | cons code codes ih =>
    rw [List.forall_mem_cons] at hcodes
    cases codes with
    | nil =>
      rw [String.intercalate_singleton]
      exact hcodes.1
    | cons code' codes =>
      rw [String.intercalate_cons_cons]
      exact h.joined (by decide) hcodes.1 (ih hcodes.2)

/-- A word has the property. -/
theorem word (h : Joinable P) {token : Token} (ht : Lexer.IsWord token.lexeme.toList) :
    P token.lexeme :=
  h.unbroken (unbroken_of_isWord (isWord_of_lexer ht))

/-- A literal of a source has the property. -/
theorem literal (h : Joinable P) {value : Literal} (hvalue : (Expr.literal value).Regular) :
    P (literal value) := by
  cases value with
  | nil => exact h.unbroken (by decide)
  | text value => exact h.quoted value
  | number x => exact h.unbroken (unbroken_number hvalue.1 hvalue.2)

/-- What is called is the callee's own code or a text without blanks. -/
theorem callTarget (h : Joinable P) (callee : Expr) (hcode : P code) :
    P (callTarget callee code) := by
  unfold JavaScript.callTarget
  split
  · split
    · exact h.unbroken (by decide)
    · exact hcode
  · exact hcode

/-- The table of an index has the property if its code has, in parentheses or without. -/
theorem indexTarget (h : Joinable P) (table : Expr) (hcode : P code) :
    P (indexTarget table code) := by
  unfold JavaScript.indexTarget
  split
  · exact h.inParens hcode
  · exact hcode

/-- A table with the key of an index behind it. -/
theorem index (h : Joinable P) {table key : Expr} (hindex : (Expr.index table key).Writes P)
    (htable : P code) (hkey : P inner) : P (code ++ indexSuffix key inner) := by
  rcases suffix_cases key with ⟨name, rfl, hname⟩ | hbrackets
  · simp only [JavaScript.indexSuffix, if_pos hname, ← String.append_assoc]
    exact h.joined (by decide) htable (hindex.fields table name (Expr.mem_parts_self _) hname)
  · simp only [(hbrackets inner []).1, ← String.append_assoc]
    exact h.enclosed (by decide) htable hkey

/-- The key of a property has it if its code has, in brackets or without. -/
theorem propertyKey (h : Joinable P) (key : Expr) (hcode : P code) :
    P (propertyKey key code) := by
  unfold JavaScript.propertyKey
  split
  · exact hcode
  · exact h.inBrackets hcode

/-- A property of an object. -/
theorem property (h : Joinable P) {key value : String} (hkey : P key) (hvalue : P value) :
    P (key ++ ": " ++ value) :=
  h.joined (by decide) hkey hvalue

mutual

/-- The code of an expression has the properties of joined code. -/
theorem expression (h : Joinable P) : ∀ (e : Expr), e.Writes P → P (expression e)
  | .binary left op right, he => by
    have hleft := h.expression left (he.part (by simp [Expr.parts]))
    have hright := h.expression right (he.part (by simp [Expr.parts]))
    have htext : JavaScript.expression (.binary left op right) =
        "(" ++ (JavaScript.expression left ++ (" " ++ op.op.symbol ++ " ") ++
          JavaScript.expression right) ++ ")" := by
      simp [JavaScript.expression, String.append_assoc]
    rw [htext]
    exact h.inParens (h.joined (separates_operator op.op) hleft hright)
  | .grouping inner, he => h.inParens (h.expression inner (he.part (by simp [Expr.parts])))
  | .literal value, he => h.literal he.regular
  | .unary op operand, he => by
    have hoperand := h.expression operand (he.part (by simp [Expr.parts]))
    have htext : JavaScript.expression (.unary op operand) =
        "(" ++ ("" ++ "-" ++ JavaScript.expression operand) ++ ")" := by
      simp only [JavaScript.expression, he.regular.1, String.append_assoc, String.empty_append]
    rw [htext]
    exact h.inParens (h.joined (by decide) (h.unbroken (by decide)) hoperand)
  | .name token, he => h.word he.regular
  | .assign target value, he => by
    have hvalue := h.expression value (he.part (by simp [Expr.parts]))
    exact h.joined (by decide) (h.word he.regular) hvalue
  | .call callee paren args, he => by
    have hcallee := h.expression callee (he.part (by simp [Expr.parts]))
    have hargs := h.expressions args fun p hp => he.part (by simp [Expr.parts, hp])
    exact h.enclosed (by decide) (h.callTarget callee hcallee) (h.listed hargs)
  | .table entries, he => by
    have hparts : ∀ p ∈ Entry.partsOfAll entries, p.Writes P :=
      fun p hp => he.part (by simp [Expr.parts, hp])
    rw [JavaScript.expression]
    split
    · exact h.bracketed (by decide) (h.listed (h.properties 1 entries hparts))
    · exact h.inBrackets (h.listed (h.elements entries hparts))
  | .index table key, he => by
    have htable := h.expression table (he.part (by simp [Expr.parts]))
    have hkey := h.expression key (he.part (by simp [Expr.parts]))
    exact h.index he (h.indexTarget table htable) hkey

/-- Each argument of a call has the property if its parts have. -/
theorem expressions (h : Joinable P) : ∀ (es : List Expr),
    (∀ p ∈ Expr.partsOfAll es, p.Writes P) → ∀ code ∈ expressions es, P code
  | [], _ => by simp [JavaScript.expressions]
  | e :: es, he => List.forall_mem_cons.mpr
      ⟨h.expression e (he e (by simp [Expr.partsOfAll])),
        h.expressions es fun p hp => he p (by simp [Expr.partsOfAll, hp])⟩

/-- Each element of an array has the property if its parts have. -/
theorem elements (h : Joinable P) : ∀ (es : List Entry),
    (∀ p ∈ Entry.partsOfAll es, p.Writes P) → ∀ code ∈ elements es, P code
  | [], _ => by simp [JavaScript.elements]
  | .positional value :: es, he => List.forall_mem_cons.mpr
      ⟨h.expression value (he value (by simp [Entry.partsOfAll, Entry.parts])),
        h.elements es fun p hp => he p (by simp [Entry.partsOfAll, hp])⟩
  | .keyed key value :: es, he => List.forall_mem_cons.mpr
      ⟨h.expression value (he value (by simp [Entry.partsOfAll, Entry.parts])),
        h.elements es fun p hp => he p (by simp [Entry.partsOfAll, hp])⟩

/-- Each property of an object has it if its parts have, wherever the numbering begins. -/
theorem properties (h : Joinable P) : ∀ (next : Nat) (es : List Entry),
    (∀ p ∈ Entry.partsOfAll es, p.Writes P) → ∀ code ∈ properties next es, P code
  | _, [], _ => by simp [JavaScript.properties]
  | next, .positional value :: es, he => by
    have hvalue := h.expression value (he value (by simp [Entry.partsOfAll, Entry.parts]))
    exact List.forall_mem_cons.mpr ⟨h.property (h.unbroken (unbroken_toString next)) hvalue,
      h.properties (next + 1) es fun p hp => he p (by simp [Entry.partsOfAll, hp])⟩
  | next, .keyed key value :: es, he => by
    have hkey := h.expression key (he key (by simp [Entry.partsOfAll, Entry.parts]))
    have hvalue := h.expression value (he value (by simp [Entry.partsOfAll, Entry.parts]))
    exact List.forall_mem_cons.mpr ⟨h.property (h.propertyKey key hkey) hvalue,
      h.properties next es fun p hp => he p (by simp [Entry.partsOfAll, hp])⟩

end

end Joinable

namespace Composable

variable {P : String → Prop}

/-- What passes to everything that is composed of pieces passes to what joins them. -/
theorem joinable (h : Composable P) : Joinable P where
  unbroken hcode := h.plain hcode.plain
  joined hbetween hcode hcode' := h.append (h.append hcode (h.plain hbetween.1)) hcode'
  enclosed {opening closing code inner} hpair hcode hinner := by
    have htext : code ++ opening ++ inner ++ closing = code ++ (opening ++ inner ++ closing) := by
      simp only [String.append_assoc]
    rw [htext]
    exact h.append hcode (h.enclosed hpair hinner)
  quoted := h.quoted

/-- Pieces of code with a text between any two of them. -/
theorem intercalate (h : Composable P) {separator : String} (hseparator : P separator)
    {codes : List String} (hcodes : ∀ code ∈ codes, P code) :
    P (separator.intercalate codes) := by
  induction codes with
  | nil =>
    rw [String.intercalate_nil]
    exact h.plain (by decide)
  | cons code codes ih =>
    rw [List.forall_mem_cons] at hcodes
    cases codes with
    | nil =>
      rw [String.intercalate_singleton]
      exact hcodes.1
    | cons code' codes =>
      rw [String.intercalate_cons_cons]
      exact h.append (h.append hcodes.1 hseparator) (ih hcodes.2)

/-- Where a property passes to what is composed, each word has it. -/
theorem word (h : Composable P) {token : Token} (ht : Lexer.IsWord token.lexeme.toList) :
    P token.lexeme :=
  h.joinable.word ht

/-- The code of an expression has the properties of composed code. -/
theorem expression (h : Composable P) (e : Expr) (he : e.Writes P) : P (expression e) :=
  h.joinable.expression e he

end Composable

section Heads

/-- What stands in front of the body of a function. -/
def functionHead (name : Token) (params : List Token) : String :=
  "function " ++ name.lexeme ++ "(" ++ ", ".intercalate (params.map (·.lexeme)) ++ ") "

/-- What stands in front of the body of a conditional or a loop. -/
def conditionHead (keyword : String) (cond : Expr) : String :=
  keyword ++ " (" ++ expression cond ++ ") "

/-- The code of a function is its head and its body in braces. -/
theorem statement_function (name : Token) (params : List Token) (body : List Stmt) :
    statement (.function name params body) =
      functionHead name params ++ braced (lines (statements body)) := by
  rw [statement, functionHead]

/-- The code of a conditional without a second branch is its head and its branch in braces. -/
theorem statement_conditional (cond : Expr) (thenBranch : Stmt) :
    statement (.conditional cond thenBranch none) =
      conditionHead "if" cond ++ braced (statement thenBranch) := by
  rw [statement, conditionHead]
  rfl

/-- The code of a conditional with two branches has both of them in braces. -/
theorem statement_conditional_else (cond : Expr) (thenBranch elseBranch : Stmt) :
    statement (.conditional cond thenBranch (some elseBranch)) =
      conditionHead "if" cond ++ braced (statement thenBranch) ++ " else " ++
        braced (statement elseBranch) := by
  rw [statement, conditionHead]
  rfl

/-- The code of a loop is its head and its body in braces. -/
theorem statement_loop (cond : Expr) (body : Stmt) :
    statement (.loop cond body) = conditionHead "while" cond ++ braced (statement body) := by
  rw [statement, conditionHead]
  rfl

/-- Statements are written one by one. -/
theorem statements_eq_map (ss : List Stmt) : statements ss = ss.map statement := by
  induction ss with
  | nil => rfl
  | cons s ss ih => rw [statements, ih, List.map_cons]

variable {P : String → Prop}

/-- The head of a function has the property. -/
theorem Composable.functionHead (h : Composable P) {name : Token} {params : List Token}
    (hname : Lexer.IsWord name.lexeme.toList)
    (hparams : ∀ t ∈ params, Lexer.IsWord t.lexeme.toList) : P (functionHead name params) := by
  have htext : JavaScript.functionHead name params = "function " ++ name.lexeme ++
      ("(" ++ ", ".intercalate (params.map (·.lexeme)) ++ ")") ++ " " := by
    simp only [JavaScript.functionHead, String.append_assoc]
    rfl
  have hlist : P (", ".intercalate (params.map (·.lexeme))) := by
    refine h.joinable.listed (List.forall_mem_map.mpr fun t ht => ?_)
    exact h.word (hparams t ht)
  rw [htext]
  exact h.append (h.append (h.append (h.plain (by decide)) (h.word hname))
    (h.joinable.inParens hlist)) (h.plain (by decide))

/-- The head of a conditional or a loop has the property if its condition writes it. -/
theorem Composable.conditionHead (h : Composable P) {keyword : String} (hkeyword : Plain keyword)
    {cond : Expr} (hcond : cond.Writes P) : P (conditionHead keyword cond) := by
  have htext : JavaScript.conditionHead keyword cond =
      keyword ++ " " ++ ("(" ++ JavaScript.expression cond ++ ")") ++ " " := by
    simp only [JavaScript.conditionHead, String.append_assoc]
    rfl
  rw [htext]
  exact h.append (h.append (h.append (h.plain hkeyword) (h.plain (by decide)))
    (h.joinable.inParens (h.expression cond hcond))) (h.plain (by decide))

end Heads

section Simple

variable {P : String → Prop}

/-- What ends with a semicolon has the property if what stands in front of it has. -/
theorem Composable.terminated (h : Composable P) {code : String} (hcode : P code) :
    P (code ++ ";") :=
  h.append hcode (h.plain (by decide))

/-- The code of a statement without a body has the properties of composed code. -/
theorem Composable.simple (h : Composable P) : ∀ {s : Stmt}, s.isSimple = true → s.Writes P →
    P (statement s)
  | .expression expr, _, hs => h.terminated (h.expression expr (Stmt.writes_expression.mp hs))
  | .returned _ none, _, _ => by
    rw [statement]
    exact h.plain (by decide)
  | .returned _ (some value), _, hs => by
    have hvalue := h.expression value (Stmt.writes_returned.mp hs value rfl)
    exact h.terminated (h.append (h.plain (by decide)) hvalue)
  | .declared name none, _, hs => by
    have hname := h.word (Stmt.writes_declared.mp hs).1
    exact h.terminated (h.append (h.plain (by decide)) hname)
  | .declared name (some initial), _, hs => by
    obtain ⟨hword, hinitial⟩ := Stmt.writes_declared.mp hs
    have hname := h.append (h.plain (by decide : Plain "let ")) (h.word hword)
    have hvalue := h.expression initial (hinitial initial rfl)
    exact h.terminated (h.append (h.append hname (h.plain (by decide))) hvalue)

end Simple

end JavaScript

end Moonbridge
