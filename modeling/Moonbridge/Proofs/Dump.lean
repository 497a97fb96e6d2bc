import Moonbridge.Proofs.Json.Refused
import Moonbridge.Proofs.Node.Typed
import Moonbridge.Proofs.Parser.Sources
import Moonbridge.Proofs.Token.Stream

/-!
# Dumps as JSON documents

The dump of a source is meant to be a JSON document from which the tokens or the program can be
read back. The numbers in it are the number literals of the source. As long as they are finite, the
dump is a document that denotes the dumped tokens or program and nothing else. A literal that is too
large for a double is infinite, and the dump of a source with one is no document at all.
-/

namespace Moonbridge

open Json (Document decode)

/-- The literal that an expression consists of. -/
def Expr.literal? : Expr → Option Literal
  | .literal value => some value
  | _ => none

/-- The literals in a program. -/
def Program.literals (program : Program) : List Literal :=
  (Program.parts program).filterMap Expr.literal?

/-- What is to be seen after a phase: the tokens or the program, with the literals in them. -/
inductive Shown : Phase → String → Json → List Literal → Prop
  | lex {source : String} {tokens : List Token} (read : tokenize source = .ok tokens) :
      Shown .lex source (dumpTokens tokens) (tokens.map (·.literal))
  | parse {source : String} {program : Program} (read : programOf source = .ok program) :
      Shown .parse source (dumpProgram program) (Program.literals program)

section Numbers

variable {x : Double}

@[simp] theorem Json.numbers_node (type : String) (parts : List (String × Json)) :
    (Json.node type parts).numbers = Json.numbersOfMembers parts := by
  simp [Json.node]

@[simp] theorem Literal.mem_numbers {l : Literal} : x ∈ l.dump.numbers ↔ l = .number x := by
  cases l <;> simp [Literal.dump, eq_comm]

/-- The number in the dump of a token is its literal. -/
theorem Token.mem_numbers {t : Token} : x ∈ t.dump.numbers ↔ t.literal = .number x := by
  simp [Token.dump]

mutual

/-- The numbers in the dump of an expression are the number literals within it. -/
theorem Expr.mem_numbers (e : Expr) : x ∈ e.dump.numbers ↔ .literal (.number x) ∈ e.parts := by
  match e with
  | .binary left op right =>
    simp [Expr.dump, Expr.parts, Expr.mem_numbers left, Expr.mem_numbers right]
  | .grouping inner => simp [Expr.dump, Expr.parts, Expr.mem_numbers inner]
  | .literal value => simp [Expr.dump, Expr.parts, eq_comm]
  | .unary op operand => simp [Expr.dump, Expr.parts, Expr.mem_numbers operand]
  | .name token => simp [Expr.dump, Expr.parts]
  | .assign target value => simp [Expr.dump, Expr.parts, Expr.mem_numbers value]
  | .call callee paren args =>
    simp [Expr.dump, Expr.parts, Expr.mem_numbers callee, Expr.mem_numbersOfAll args]
  | .table entries => simp [Expr.dump, Expr.parts, Entry.mem_numbersOfAll entries]
  | .index table key =>
    simp [Expr.dump, Expr.parts, Expr.mem_numbers table, Expr.mem_numbers key]

/-- The numbers in the dump of an entry are those of its number literals. -/
theorem Entry.mem_numbers (e : Entry) :
    x ∈ e.dump.numbers ↔ .literal (.number x) ∈ e.parts := by
  match e with
  | .positional value => simp [Entry.dump, Entry.parts, Expr.mem_numbers value]
  | .keyed key value =>
    simp [Entry.dump, Entry.parts, Expr.mem_numbers key, Expr.mem_numbers value]

/-- The numbers in the dumps of several expressions are those of their literals. -/
theorem Expr.mem_numbersOfAll (es : List Expr) :
    x ∈ Json.numbersOfItems (Expr.dumps es) ↔ .literal (.number x) ∈ Expr.partsOfAll es := by
  match es with
  | [] => simp [Expr.dumps, Expr.partsOfAll]
  | e :: es =>
    simp [Expr.dumps, Expr.partsOfAll, Expr.mem_numbers e, Expr.mem_numbersOfAll es]

/-- The numbers in the dumps of several entries are those of their literals. -/
theorem Entry.mem_numbersOfAll (es : List Entry) :
    x ∈ Json.numbersOfItems (Entry.dumps es) ↔ .literal (.number x) ∈ Entry.partsOfAll es := by
  match es with
  | [] => simp [Entry.dumps, Entry.partsOfAll]
  | e :: es =>
    simp [Entry.dumps, Entry.partsOfAll, Entry.mem_numbers e, Entry.mem_numbersOfAll es]

end

/-- The numbers in the dump of an expression that may be absent are those of its literals. -/
theorem Expr.mem_numbersOfOption {e : Option Expr} : x ∈ (Json.ofOption (e.map Expr.dump)).numbers ↔
    ∃ p ∈ e.toList, .literal (.number x) ∈ p.parts := by
  cases e <;> simp [Json.ofOption, Expr.mem_numbers]

mutual

/-- The numbers in the dump of a statement are the number literals of its expressions. -/
theorem Stmt.mem_numbers (s : Stmt) :
    x ∈ s.dump.numbers ↔ ∃ e ∈ s.expressions, .literal (.number x) ∈ e.parts := by
  match s with
  | .expression expr => simp [Stmt.dump, Stmt.expressions, Expr.mem_numbers]
  | .function name params body =>
    have hparams : x ∉ Json.numbersOfItems (params.map fun p => .string p.lexeme) := by
      simp [Json.mem_numbersOfItems]
    simp [Stmt.dump, Stmt.expressions, hparams, Stmt.mem_numbersOfAll body]
  | .conditional cond thenBranch none =>
    simp [Stmt.dump, Stmt.expressions, Expr.mem_numbers, Stmt.mem_numbers thenBranch]
  | .conditional cond thenBranch (some elseBranch) =>
    simp [Stmt.dump, Stmt.expressions, Expr.mem_numbers, Stmt.mem_numbers thenBranch,
      Stmt.mem_numbers elseBranch, or_and_right, exists_or]
  | .returned keyword value => simp [Stmt.dump, Stmt.expressions, Expr.mem_numbersOfOption]
  | .declared name initial => simp [Stmt.dump, Stmt.expressions, Expr.mem_numbersOfOption]
  | .loop cond body =>
    simp [Stmt.dump, Stmt.expressions, Expr.mem_numbers, Stmt.mem_numbers body]
  | .block body => simp [Stmt.dump, Stmt.expressions, Stmt.mem_numbersOfAll body]

/-- The numbers in the dumps of several statements are those of the literals in them. -/
theorem Stmt.mem_numbersOfAll (ss : List Stmt) :
    x ∈ Json.numbersOfItems (Stmt.dumps ss) ↔
      ∃ e ∈ Stmt.expressionsOfAll ss, .literal (.number x) ∈ e.parts := by
  match ss with
  | [] => simp [Stmt.dumps, Stmt.expressionsOfAll]
  | s :: ss =>
    simp [Stmt.dumps, Stmt.expressionsOfAll, Stmt.mem_numbers s, Stmt.mem_numbersOfAll ss,
      or_and_right, exists_or]

end

/-- The literals of a program are the literal parts of its expressions. -/
theorem Program.mem_literals {program : Program} {l : Literal} :
    l ∈ Program.literals program ↔ .literal l ∈ Program.parts program := by
  have hliteral : ∀ e : Expr, e.literal? = some l ↔ e = .literal l := by
    intro e
    cases e <;> simp [Expr.literal?]
  simp [Program.literals, hliteral]

/-- The numbers in a dump are the number literals that are to be seen. -/
theorem Shown.mem_numbers {phase : Phase} {source : String} {value : Json}
    {literals : List Literal} (h : Shown phase source value literals) :
    x ∈ value.numbers ↔ .number x ∈ literals := by
  cases h with
  | @lex source tokens read =>
    simp [dumpTokens, Json.mem_numbersOfItems, Token.mem_numbers]
  | @parse source program read =>
    rw [Program.mem_literals, Program.parts, List.mem_flatMap, ← Stmt.mem_numbersOfAll,
      Stmt.dumps_eq_map, dumpProgram, Json.numbers]

end Numbers

/-- After the first phase the tokens are written, whatever they are. -/
theorem dumpAfter_lex {source : String} {tokens : List Token} (h : tokenize source = .ok tokens) :
    dumpAfter .lex source = .ok ((dumpTokens tokens).print (.indented 2)) := by
  rw [dumpAfter, tokensOf, h]
  rfl

/-- A source of digits only has one token, their number. -/
theorem tokenize_digits {digits : List Char} (hne : digits ≠ [])
    (hdigits : ∀ c ∈ digits, Lexer.isDigit c = true) :
    tokenize (String.ofList digits) = .ok [⟨.number, String.ofList digits,
      .number (Decimal.ofNumeral digits []).toDouble, 1⟩, ⟨.endOfInput, "", .nil, 1⟩] := by
  have hstops : Text.Stops Lexer.isDigit [] := by simp [Text.Stops]
  have htake := Text.takeWhile_run hdigits hstops
  have hdrop := Text.dropWhile_run hdigits hstops
  rw [List.append_nil] at htake hdrop
  have hnumber : Lexer.cutNumber digits = ⟨.number, digits, []⟩ := by
    simp [Lexer.cutNumber, htake, hdrop]
  have hvalue : Lexer.numeral digits = .ofNumeral digits [] := by
    simp [Lexer.numeral, htake, hdrop]
  have hline : digits.count '\n' = 0 := by
    rw [List.count_eq_zero]
    exact fun hmem => absurd (hdigits _ hmem) (by decide)
  obtain ⟨c, rest, rfl⟩ := List.exists_cons_of_ne_nil hne
  have hc := hdigits c List.mem_cons_self
  have hapart : ∀ d ∈ ['\n', ' ', '\t', '\r', '-', '"'], c ≠ d := by
    have hall : ∀ d ∈ ['\n', ' ', '\t', '\r', '-', '"'], Lexer.isDigit d = false := by
      simp [Lexer.isDigit]
    rintro d hd rfl
    simp [hall c hd] at hc
  have hblank : Lexer.isBlank c = false := by simp [Lexer.isBlank, hapart]
  have hcut : Lexer.cut c rest = .ok ⟨.number, c :: rest, []⟩ := by
    rw [Lexer.cut, if_neg (hapart _ (by simp)), if_pos hc, hnumber]
  rw [tokenize, String.toList_ofList, Lexer.scan_of_cut (hapart _ (by simp)) hblank
    (fun hminus => hapart _ (by simp) hminus.1) hcut, Lexer.scan]
  simp [Lexer.Cut.token, Lexer.literal, hline, hvalue]

/-- A dump that is made is the printed form of what is to be seen. -/
theorem shown_of_dumpAfter {phase : Phase} {source text : String}
    (h : dumpAfter phase source = .ok text) :
    ∃ value literals, Shown phase source value literals ∧ text = value.print (.indented 2) := by
  cases phase with
  | lex =>
    cases htokens : tokensOf source with
    | error e =>
      rw [dumpAfter, htokens] at h
      cases h
    | ok tokens =>
      rw [dumpAfter, htokens] at h
      exact ⟨_, _, .lex (mapError_eq_ok_iff.mp htokens), (Except.ok.inj h).symm⟩
  | parse =>
    cases hprogram : programOf source with
    | error e =>
      rw [dumpAfter, hprogram] at h
      cases h
    | ok program =>
      rw [dumpAfter, hprogram] at h
      exact ⟨_, _, .parse hprogram, (Except.ok.inj h).symm⟩

/-- A dump denotes what is to be seen after the phase, with all its strings and numbers, and nothing
else, as long as the number literals in it are finite. Otherwise it is no document. What can be read
from it is what it denotes. -/
theorem dump_document {phase : Phase} {source text : String}
    (h : dumpAfter phase source = .ok text) :
    ∃ value literals, Shown phase source value literals ∧ ∀ value',
      (Document text value' ↔
        value' = value ∧ ∀ x, Literal.number x ∈ literals → x.isFinite = true) ∧
      (decode text = some value' ↔ Document text value') := by
  obtain ⟨value, literals, hshown, rfl⟩ := shown_of_dumpAfter h
  have hfinite : value.Finite ↔ ∀ x, Literal.number x ∈ literals → x.isFinite = true := by
    simp only [Json.Finite, hshown.mem_numbers]
  refine ⟨value, literals, hshown, fun value' => ⟨?_, Json.decode_print_iff⟩⟩
  rw [Json.document_print_iff, hfinite]

/-- A text with an accent and a number without a finite binary expansion are read back. -/
theorem dump_document_literals : ∃ text, dumpAfter .lex "\"é\" 0.1" = .ok text ∧
    ∃ value, Document text value ∧ Shown .lex "\"é\" 0.1" value
      [.text "é", .number (Decimal.ofNumeral ['0'] ['1']).toDouble, .nil] := by
  have htokens : tokenize "\"é\" 0.1" = .ok [⟨.string, "\"é\"", .text "é", 1⟩,
      ⟨.number, "0.1", .number (Decimal.ofNumeral ['0'] ['1']).toDouble, 1⟩,
      ⟨.endOfInput, "", .nil, 1⟩] := by decide +kernel
  refine ⟨_, dumpAfter_lex htokens, _, ?_, .lex htokens⟩
  obtain ⟨value, literals, hshown, hdocument⟩ := dump_document (dumpAfter_lex htokens)
  cases hshown with
  | lex read =>
    obtain rfl := Except.ok.inj (htokens.symm.trans read)
    refine (hdocument _).1.mpr ⟨rfl, fun x hx => ?_⟩
    obtain rfl : x = (Decimal.ofNumeral ['0'] ['1']).toDouble := by simpa using hx
    decide +kernel

/-- The digits of a number beyond all finite doubles. -/
def hugeDigits : List Char := '1' :: List.replicate 309 '0'

/-- The dump of a numeral that is too large is made, but it is no document. -/
theorem dump_of_huge_digits :
    ∃ text, dumpAfter .lex (String.ofList hugeDigits) = .ok text ∧
      ∀ value, ¬ Document text value := by
  have hne : hugeDigits ≠ [] := List.cons_ne_nil _ _
  have hdigits : ∀ c ∈ hugeDigits, Lexer.isDigit c = true := by
    intro c hc
    rcases List.mem_cons.mp hc with rfl | hc
    · rfl
    · rw [List.eq_of_mem_replicate hc]
      rfl
  have htokens := tokenize_digits hne hdigits
  refine ⟨_, dumpAfter_lex htokens, fun value hvalue => ?_⟩
  have hdecimal : Decimal.ofNumeral hugeDigits [] = ⟨10 ^ 309, 0⟩ := by decide +kernel
  have hinfinite : (Decimal.mk (10 ^ 309) 0).toDouble.isFinite = false := by decide +kernel
  obtain ⟨-, hfinite⟩ := Json.document_print_iff.mp hvalue
  have hnumber := hfinite _ ((Shown.lex htokens).mem_numbers.mpr List.mem_cons_self)
  rw [hdecimal, hinfinite] at hnumber
  cases hnumber

end Moonbridge
