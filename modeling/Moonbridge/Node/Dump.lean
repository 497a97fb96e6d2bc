import Moonbridge.Dump
import Moonbridge.Node.Basic

/-!
# Dumps of untyped trees

Any node may stand anywhere in a dump, and plain values, tokens and lists are dumped as they
are. Only a table entry has no dump of its own: it belongs into a table.
-/

namespace Moonbridge

mutual

/-- The dump of an untyped tree. -/
def Node.dump : Node → Except Defect Json
  | .null => return .null
  | .bool value => return .bool value
  | .int value => return .int value
  | .float value => return .number value
  | .text value => return .string value
  | .token value => return value.dump
  | .list items => return .array (← Node.dumps items)
  | .binary left op right => do
    let left ← left.dump
    let right ← right.dump
    return .node "Binary" [("left", left), ("op", .string op.lexeme), ("right", right)]
  | .grouping inner => return .node "Grouping" [("expr", ← inner.dump)]
  | .literal value => return .node "Literal" [("value", value.dump)]
  | .unary op operand =>
    return .node "Unary" [("op", .string op.lexeme), ("operand", ← operand.dump)]
  | .name ident =>
    return .node "Variable" [("name", .string ident.lexeme), ("line", .int ident.line)]
  | .assign target value =>
    return .node "Assign" [("name", .string target.lexeme), ("value", ← value.dump)]
  | .call callee paren args => do
    let callee ← callee.dump
    let args ← Node.dumps args
    return .node "Call" [("callee", callee), ("args", .array args), ("line", .int paren.line)]
  | .entry _ => .error (.noDump "TableEntry")
  | .table entries => return .node "Table" [("entries", .array (← NodeEntry.dumps entries))]
  | .index base key => do
    let base ← base.dump
    let key ← key.dump
    return .node "Index" [("table", base), ("key", key)]
  | .expression expr => return .node "ExpressionStmt" [("expr", ← expr.dump)]
  | .function ident params body => do
    let body ← Node.dumps body
    return .node "Function" [("name", .string ident.lexeme),
      ("params", .array (params.map fun p => .string p.lexeme)),
      ("body", .array body), ("line", .int ident.line)]
  | .conditional cond thenBranch elseBranch => do
    let cond ← cond.dump
    let thenBranch ← thenBranch.dump
    let elseBranch ← elseBranch.dump
    return .node "If" [("cond", cond), ("then", thenBranch), ("else", elseBranch)]
  | .returned keyword value =>
    return .node "Return" [("value", ← value.dump), ("line", .int keyword.line)]
  | .declared ident initial =>
    return .node "Var" [("name", .string ident.lexeme), ("initializer", ← initial.dump),
      ("line", .int ident.line)]
  | .loop cond body => do
    let cond ← cond.dump
    let body ← body.dump
    return .node "While" [("cond", cond), ("body", body)]
  | .block body => return .node "Block" [("statements", .array (← Node.dumps body))]

/-- The dumps of untyped trees in order. -/
def Node.dumps : List Node → Except Defect (List Json)
  | [] => return []
  | n :: ns => do
    let d ← n.dump
    let ds ← Node.dumps ns
    return d :: ds

/-- The dumps of the entries of an untyped table in order. -/
def NodeEntry.dumps : List NodeEntry → Except Defect (List Json)
  | [] => return []
  | .mk key value :: es => do
    let key ← key.dump
    let value ← value.dump
    let ds ← NodeEntry.dumps es
    return .object [("key", key), ("value", value)] :: ds

end

/-- The dump of an untyped program. -/
def Node.dumpProgram (program : List Node) : Except Defect Json :=
  return .array (← Node.dumps program)

end Moonbridge
