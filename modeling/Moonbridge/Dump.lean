import Moonbridge.Json
import Moonbridge.Tree.Basic

/-!
# Dumps

A token list or a program as a JSON document. A node names its type and gives its parts in
order; of its tokens it shows the text, and for some nodes the line.
-/

namespace Moonbridge

/-- A literal value. -/
def Literal.dump : Literal → Json
  | nil => .null
  | text value => .string value
  | number value => .number value

/-- A token with all its parts. -/
def Token.dump (t : Token) : Json :=
  .object [("kind", .string t.kind.name), ("lexeme", .string t.lexeme),
    ("literal", t.literal.dump), ("line", .int t.line)]

/-- A node of the given type with the given parts. -/
def Json.node (type : String) (parts : List (String × Json)) : Json :=
  .object (("_type", .string type) :: parts)

mutual

/-- The dump of an expression. -/
def Expr.dump : Expr → Json
  | .binary left op right =>
    .node "Binary" [("left", left.dump), ("op", .string op.token.lexeme), ("right", right.dump)]
  | .grouping inner => .node "Grouping" [("expr", inner.dump)]
  | .literal value => .node "Literal" [("value", value.dump)]
  | .unary op operand => .node "Unary" [("op", .string op.lexeme), ("operand", operand.dump)]
  | .name token => .node "Variable" [("name", .string token.lexeme), ("line", .int token.line)]
  | .assign target value =>
    .node "Assign" [("name", .string target.lexeme), ("value", value.dump)]
  | .call callee paren args =>
    .node "Call" [("callee", callee.dump), ("args", .array (Expr.dumps args)),
      ("line", .int paren.line)]
  | .table entries => .node "Table" [("entries", .array (Entry.dumps entries))]
  | .index table key => .node "Index" [("table", table.dump), ("key", key.dump)]

/-- The dump of a table entry. -/
def Entry.dump : Entry → Json
  | .positional value => .object [("key", .null), ("value", value.dump)]
  | .keyed key value => .object [("key", key.dump), ("value", value.dump)]

/-- The dumps of expressions in order. -/
def Expr.dumps : List Expr → List Json
  | [] => []
  | e :: es => e.dump :: Expr.dumps es

/-- The dumps of table entries in order. -/
def Entry.dumps : List Entry → List Json
  | [] => []
  | e :: es => e.dump :: Entry.dumps es

end

/-- An absent part is null. -/
def Json.ofOption : Option Json → Json
  | none => .null
  | some value => value

mutual

/-- The dump of a statement. -/
def Stmt.dump : Stmt → Json
  | .expression expr => .node "ExpressionStmt" [("expr", expr.dump)]
  | .function name params body =>
    .node "Function" [("name", .string name.lexeme),
      ("params", .array (params.map fun p => .string p.lexeme)),
      ("body", .array (Stmt.dumps body)), ("line", .int name.line)]
  | .conditional cond thenBranch none =>
    .node "If" [("cond", cond.dump), ("then", thenBranch.dump), ("else", .null)]
  | .conditional cond thenBranch (some elseBranch) =>
    .node "If" [("cond", cond.dump), ("then", thenBranch.dump), ("else", elseBranch.dump)]
  | .returned keyword value =>
    .node "Return" [("value", .ofOption (value.map Expr.dump)), ("line", .int keyword.line)]
  | .declared name initial =>
    .node "Var" [("name", .string name.lexeme),
      ("initializer", .ofOption (initial.map Expr.dump)), ("line", .int name.line)]
  | .loop cond body => .node "While" [("cond", cond.dump), ("body", body.dump)]
  | .block body => .node "Block" [("statements", .array (Stmt.dumps body))]

/-- The dumps of statements in order. -/
def Stmt.dumps : List Stmt → List Json
  | [] => []
  | s :: ss => s.dump :: Stmt.dumps ss

end

/-- The dump of a token list. -/
def dumpTokens (tokens : List Token) : Json := .array (tokens.map Token.dump)

/-- The dump of a program. -/
def dumpProgram (program : Program) : Json := .array (program.map Stmt.dump)

end Moonbridge
