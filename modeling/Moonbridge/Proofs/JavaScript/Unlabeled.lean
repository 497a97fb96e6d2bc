import Moonbridge.JavaScript.Code
import Moonbridge.Proofs.Tree.Relabel

/-!
# Code does not show lines

Of its tokens the code of a program shows the texts only, so that a program with other labels has
the same code. The code of a sequence of programs is that of its parts on lines of their own.
-/

namespace Moonbridge.JavaScript

section Pieces

variable (r : Relabeling) (code : String)

/-- How a callee is written depends on its text only. -/
theorem callTarget_relabel (callee : Expr) :
    callTarget (callee.relabel r) code = callTarget callee code := by
  cases callee <;> simp [Expr.relabel, callTarget]

/-- Whether a table takes parentheses does not depend on the labels. -/
theorem indexTarget_relabel (table : Expr) :
    indexTarget (table.relabel r) code = indexTarget table code := by
  cases table <;> simp [Expr.relabel, indexTarget]

/-- Whether a key stands behind a point does not depend on the labels. -/
theorem indexSuffix_relabel (key : Expr) :
    indexSuffix (key.relabel r) code = indexSuffix key code := by
  cases key <;> simp [Expr.relabel, indexSuffix]

/-- Whether a key of a property takes brackets does not depend on the labels. -/
theorem propertyKey_relabel (key : Expr) :
    propertyKey (key.relabel r) code = propertyKey key code := by
  cases key <;> simp [Expr.relabel, propertyKey]

/-- Relabeling keeps the keys of entries. -/
theorem isKeyed_relabel (entry : Entry) : (entry.relabel r).isKeyed = entry.isKeyed := by
  cases entry <;> rfl

end Pieces

variable (r : Relabeling)

mutual

/-- The code of an expression does not depend on its labels. -/
theorem expression_relabel : ∀ e : Expr, expression (e.relabel r) = expression e
  | .binary left op right => by
    simp only [Expr.relabel, expression, expression_relabel left, expression_relabel right]
    rfl
  | .grouping inner => by simp only [Expr.relabel, expression, expression_relabel inner]
  | .literal value => rfl
  | .unary op operand => by
    simp only [Expr.relabel, expression, expression_relabel operand, r.lexeme_token]
  | .name token => by simp only [Expr.relabel, expression, r.lexeme_token]
  | .assign target value => by
    simp only [Expr.relabel, expression, expression_relabel value, r.lexeme_token]
  | .call callee paren args => by
    simp only [Expr.relabel, expression, expression_relabel callee, expressions_relabel args,
      callTarget_relabel]
  | .table entries => by
    have hkeyed : (entries.map (Entry.relabel r)).any Entry.isKeyed =
        entries.any Entry.isKeyed := by
      simp [List.any_map, Function.comp_def, isKeyed_relabel]
    have helements := elements_relabel entries
    have hproperties := properties_relabel 1 entries
    rw [Entry.relabelAll_eq_map] at helements hproperties
    simp only [Expr.relabel, expression, Entry.relabelAll_eq_map, hkeyed, helements, hproperties]
  | .index table key => by
    simp only [Expr.relabel, expression, expression_relabel table, expression_relabel key,
      indexTarget_relabel, indexSuffix_relabel]

/-- Arguments are written without regard to the labels. -/
theorem expressions_relabel : ∀ es : List Expr,
    expressions (Expr.relabelAll r es) = expressions es
  | [] => rfl
  | e :: es => by
    simp only [Expr.relabelAll, expressions, expression_relabel e, expressions_relabel es]

/-- The elements of an array are written without regard to the labels. -/
theorem elements_relabel : ∀ es : List Entry, elements (Entry.relabelAll r es) = elements es
  | [] => rfl
  | .positional value :: es | .keyed _ value :: es => by
    simp only [Entry.relabelAll, Entry.relabel, elements, expression_relabel value,
      elements_relabel es]

/-- The properties of an object are written without regard to the labels. -/
theorem properties_relabel (next : Nat) : ∀ es : List Entry,
    properties next (Entry.relabelAll r es) = properties next es
  | [] => rfl
  | .positional value :: es => by
    simp only [Entry.relabelAll, Entry.relabel, properties, expression_relabel value,
      properties_relabel (next + 1) es]
  | .keyed key value :: es => by
    simp only [Entry.relabelAll, Entry.relabel, properties, expression_relabel key,
      expression_relabel value, propertyKey_relabel, properties_relabel next es]

end

mutual

/-- The code of a statement does not depend on its labels. -/
theorem statement_relabel : ∀ s : Stmt, statement (s.relabel r) = statement s
  | .expression expr => by simp only [Stmt.relabel, statement, expression_relabel]
  | .function name params body => by
    have hparams : (params.map r.token).map (·.lexeme) = params.map (·.lexeme) := by
      simp [Function.comp_def]
    simp only [Stmt.relabel, statement, hparams, statements_relabel body, r.lexeme_token]
  | .conditional cond thenBranch none => by
    simp only [Stmt.relabel, statement, expression_relabel, statement_relabel thenBranch]
  | .conditional cond thenBranch (some elseBranch) => by
    simp only [Stmt.relabel, statement, expression_relabel, statement_relabel thenBranch,
      statement_relabel elseBranch]
  | .returned keyword value => by
    cases value <;> simp [Stmt.relabel, statement, expression_relabel]
  | .declared name initial => by
    cases initial <;> simp [Stmt.relabel, statement, expression_relabel]
  | .loop cond body => by
    simp only [Stmt.relabel, statement, expression_relabel, statement_relabel body]
  | .block body => by simp only [Stmt.relabel, statement, statements_relabel body]

/-- Statements are written without regard to the labels. -/
theorem statements_relabel : ∀ ss : List Stmt,
    statements (Stmt.relabelAll r ss) = statements ss
  | [] => rfl
  | s :: ss => by
    simp only [Stmt.relabelAll, statements, statement_relabel s, statements_relabel ss]

end

/-- The code of a program does not depend on its labels. -/
theorem program_relabel (stmts : Program) :
    program (stmts.map (Stmt.relabel r)) = program stmts := by
  simp [program, Function.comp_def, statement_relabel]

/-- The code of one program behind another stands on lines of its own; a program without
statements takes no line. -/
theorem program_append (first second : Program) :
    program (first ++ second) =
      if first = [] then program second
      else if second = [] then program first
      else program first ++ "\n" ++ program second := by
  by_cases hfirst : first = []
  · simp [hfirst]
  by_cases hsecond : second = []
  · simp [hfirst, hsecond]
  rw [if_neg hfirst, if_neg hsecond, program, List.map_append, lines,
    String.intercalate_append_of_ne_nil (by simpa using hfirst) (by simpa using hsecond)]
  rfl

end Moonbridge.JavaScript
