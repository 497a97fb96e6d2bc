import Moonbridge.JavaScript.Code
import Moonbridge.Node.Basic

/-!
# Checking untyped trees

Checking an untyped tree for a program finds its first defect from left to right: in a
binary node the left operand, the operator, the right operand; in a table entry the key,
then the value; everywhere else the parts in order. A tree without a defect is a program,
and has the code of that program.
-/

namespace Moonbridge

/-- A token as a binary operator. -/
def Operator.check (token : Token) : Except Defect Operator :=
  match Operator.ofToken? token with
  | some op => .ok op
  | none => .error (.noOperator token.kind)

mutual

/-- A node as an expression. -/
def Node.checkExpr : Node → Except Defect Expr
  | .binary left op right => do
    let left ← left.checkExpr
    let op ← Operator.check op
    let right ← right.checkExpr
    return .binary left op right
  | .grouping inner => return .grouping (← inner.checkExpr)
  | .literal value => return .literal value
  | .unary op operand => return .unary op (← operand.checkExpr)
  | .name ident => return .name ident
  | .assign target value => return .assign target (← value.checkExpr)
  | .call callee paren args => do
    let callee ← callee.checkExpr
    let args ← Node.checkExprs args
    return .call callee paren args
  | .table entries => return .table (← Node.checkEntries entries)
  | .index base key => do
    let base ← base.checkExpr
    let key ← key.checkExpr
    return .index base key
  | other => .error (.noExpression other.typeName)

/-- Nodes as expressions. -/
def Node.checkExprs : List Node → Except Defect (List Expr)
  | [] => return []
  | n :: ns => do
    let e ← n.checkExpr
    let es ← Node.checkExprs ns
    return e :: es

/-- An entry of an untyped table as a table entry. -/
def NodeEntry.check : NodeEntry → Except Defect Entry
  | .mk .null value => return .positional (← value.checkExpr)
  | .mk key value => do
    let key ← key.checkExpr
    let value ← value.checkExpr
    return .keyed key value

/-- Entries of an untyped table as table entries. -/
def Node.checkEntries : List NodeEntry → Except Defect (List Entry)
  | [] => return []
  | n :: ns => do
    let e ← n.check
    let es ← Node.checkEntries ns
    return e :: es

end

/-- A node as an expression that may be absent. -/
def Node.checkOption : Node → Except Defect (Option Expr)
  | .null => return none
  | node => return some (← node.checkExpr)

mutual

/-- A node as a statement. -/
def Node.checkStmt : Node → Except Defect Stmt
  | .expression expr => return .expression (← expr.checkExpr)
  | .function ident params body => return .function ident params (← Node.checkStmts body)
  | .conditional cond thenBranch .null => do
    let cond ← cond.checkExpr
    let thenBranch ← thenBranch.checkStmt
    return .conditional cond thenBranch none
  | .conditional cond thenBranch elseBranch => do
    let cond ← cond.checkExpr
    let thenBranch ← thenBranch.checkStmt
    let elseBranch ← elseBranch.checkStmt
    return .conditional cond thenBranch (some elseBranch)
  | .returned keyword value => return .returned keyword (← value.checkOption)
  | .declared ident initial => return .declared ident (← initial.checkOption)
  | .loop cond body => do
    let cond ← cond.checkExpr
    let body ← body.checkStmt
    return .loop cond body
  | .block body => return .block (← Node.checkStmts body)
  | other => .error (.noStatement other.typeName)

/-- Nodes as statements. -/
def Node.checkStmts : List Node → Except Defect (List Stmt)
  | [] => return []
  | n :: ns => do
    let s ← n.checkStmt
    let ss ← Node.checkStmts ns
    return s :: ss

end

/-- The code of an untyped program. -/
def Node.javaScript (program : List Node) : Except Defect String :=
  return JavaScript.program (← Node.checkStmts program)

end Moonbridge
