import Moonbridge.Tree.Basic

/-!
# Untyped trees

A node of any type may stand anywhere in an untyped tree, and so may plain values, tokens
and lists; only the tokens of a node and the entries of a table are what they should be. An
absent part is null. Every program tree is also an untyped tree.
-/

namespace Moonbridge

mutual

/-- A node of an untyped tree. -/
inductive Node
  | null
  | bool (value : Bool)
  | int (value : Int)
  | float (value : Double)
  | text (value : String)
  | token (value : Token)
  | list (items : List Node)
  | binary (left : Node) (op : Token) (right : Node)
  | grouping (inner : Node)
  | literal (value : Literal)
  | unary (op : Token) (operand : Node)
  | name (token : Token)
  | assign (target : Token) (value : Node)
  | call (callee : Node) (paren : Token) (args : List Node)
  | entry (entry : NodeEntry)
  | table (entries : List NodeEntry)
  | index (table key : Node)
  | expression (expr : Node)
  | function (name : Token) (params : List Token) (body : List Node)
  | conditional (cond thenBranch elseBranch : Node)
  | returned (keyword : Token) (value : Node)
  | declared (name : Token) (initial : Node)
  | loop (cond body : Node)
  | block (statements : List Node)

/-- An entry of an untyped table; a positional one has a null key. -/
inductive NodeEntry
  | mk (key value : Node)

end

/-- The name of a node's type in messages. -/
def Node.typeName : Node → String
  | null => "NoneType"
  | bool _ => "bool"
  | int _ => "int"
  | float _ => "float"
  | text _ => "str"
  | token _ => "Token"
  | list _ => "tuple"
  | binary .. => "Binary"
  | grouping _ => "Grouping"
  | literal _ => "Literal"
  | unary .. => "Unary"
  | name _ => "Variable"
  | assign .. => "Assign"
  | call .. => "Call"
  | entry _ => "TableEntry"
  | table _ => "Table"
  | index .. => "Index"
  | expression _ => "ExpressionStmt"
  | function .. => "Function"
  | conditional .. => "If"
  | returned .. => "Return"
  | declared .. => "Var"
  | loop .. => "While"
  | block _ => "Block"

/-- What can be wrong with an untyped tree. -/
inductive Defect
  | noStatement (type : String)
  | noExpression (type : String)
  | noOperator (kind : Kind)
  | noDump (type : String)
  deriving DecidableEq, Repr

/-- The wording of a defect. -/
def Defect.message : Defect → String
  | noStatement type => "unhandled stmt type: " ++ type
  | noExpression type => "unhandled expr type: " ++ type
  | noOperator kind => "unknown binary operator: " ++ kind.name
  | noDump type => "cannot serialize " ++ type

mutual

/-- An expression as an untyped tree. -/
def Expr.node : Expr → Node
  | .binary left op right => .binary left.node op.token right.node
  | .grouping inner => .grouping inner.node
  | .literal value => .literal value
  | .unary op operand => .unary op operand.node
  | .name token => .name token
  | .assign target value => .assign target value.node
  | .call callee paren args => .call callee.node paren (Expr.nodes args)
  | .table entries => .table (Entry.nodes entries)
  | .index table key => .index table.node key.node

/-- A table entry as an entry of an untyped table. -/
def Entry.node : Entry → NodeEntry
  | .positional value => .mk .null value.node
  | .keyed key value => .mk key.node value.node

/-- Expressions as untyped trees. -/
def Expr.nodes : List Expr → List Node
  | [] => []
  | e :: es => e.node :: Expr.nodes es

/-- Table entries as entries of untyped tables. -/
def Entry.nodes : List Entry → List NodeEntry
  | [] => []
  | e :: es => e.node :: Entry.nodes es

end

/-- An absent expression is null. -/
def Expr.optionNode : Option Expr → Node
  | none => .null
  | some e => e.node

mutual

/-- A statement as an untyped tree. -/
def Stmt.node : Stmt → Node
  | .expression expr => .expression expr.node
  | .function name params body => .function name params (Stmt.nodes body)
  | .conditional cond thenBranch none => .conditional cond.node thenBranch.node .null
  | .conditional cond thenBranch (some elseBranch) =>
    .conditional cond.node thenBranch.node elseBranch.node
  | .returned keyword value => .returned keyword (Expr.optionNode value)
  | .declared name initial => .declared name (Expr.optionNode initial)
  | .loop cond body => .loop cond.node body.node
  | .block body => .block (Stmt.nodes body)

/-- Statements as untyped trees. -/
def Stmt.nodes : List Stmt → List Node
  | [] => []
  | s :: ss => s.node :: Stmt.nodes ss

end

end Moonbridge
