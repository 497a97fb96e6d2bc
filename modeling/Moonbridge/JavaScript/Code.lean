import Moonbridge.JavaScript.Literal
import Moonbridge.Tree.Basic

/-!
# JavaScript code of a program

Every node becomes a piece of text built from the texts of its children. Operators are
parenthesised, so that the nesting of a tree survives. A table without keys becomes an
array, any other table an object in which the positional entries count from one. The bodies
of functions, conditionals and loops are indented by two spaces and stand in braces; a
block adds nothing around its statements.
-/

namespace Moonbridge

/-- The JavaScript spelling of an operator. -/
def BinaryOp.symbol : BinaryOp → String
  | plus => "+"
  | minus => "-"
  | times => "*"
  | divide => "/"
  | equal => "==="
  | notEqual => "!=="
  | less => "<"
  | lessEqual => "<="
  | greater => ">"
  | greaterEqual => ">="
  | and => "&&"
  | or => "||"

namespace JavaScript

/-- What is called: the global `print` has a counterpart of another name, and every other
callee is its own code. -/
def callTarget (callee : Expr) (code : String) : String :=
  match callee with
  | .name token => if token.lexeme = "print" then "console.log" else code
  | _ => code

/-- The table of an index. A dot behind a bare number would be read as its point. -/
def indexTarget (table : Expr) (code : String) : String :=
  match table with
  | .literal (.number _) => "(" ++ code ++ ")"
  | _ => code

/-- The key of an index: a property name behind a dot, or any code in brackets. -/
def indexSuffix (key : Expr) (code : String) : String :=
  match key with
  | .literal (.text name) => if isPropertyName name then "." ++ name else "[" ++ code ++ "]"
  | _ => "[" ++ code ++ "]"

/-- The key of an object's property: a literal, or any code in brackets. -/
def propertyKey (key : Expr) (code : String) : String :=
  match key with
  | .literal _ => code
  | _ => "[" ++ code ++ "]"

mutual

/-- The code of an expression. -/
def expression : Expr → String
  | .binary left op right =>
    "(" ++ expression left ++ " " ++ op.op.symbol ++ " " ++ expression right ++ ")"
  | .grouping inner => "(" ++ expression inner ++ ")"
  | .literal value => literal value
  | .unary op operand => "(" ++ op.lexeme ++ expression operand ++ ")"
  | .name token => token.lexeme
  | .assign target value => target.lexeme ++ " = " ++ expression value
  | .call callee _ args =>
    callTarget callee (expression callee) ++ "(" ++ ", ".intercalate (expressions args) ++ ")"
  | .table entries =>
    if entries.any Entry.isKeyed then
      "\x7b" ++ ", ".intercalate (properties 1 entries) ++ "\x7d"
    else
      "[" ++ ", ".intercalate (elements entries) ++ "]"
  | .index table key =>
    indexTarget table (expression table) ++ indexSuffix key (expression key)

/-- The codes of expressions in order. -/
def expressions : List Expr → List String
  | [] => []
  | e :: es => expression e :: expressions es

/-- The elements of an array: the values of the entries in order. -/
def elements : List Entry → List String
  | [] => []
  | .positional value :: es => expression value :: elements es
  | .keyed _ value :: es => expression value :: elements es

/-- The properties of an object. The positional entries get the numbers from `next` on. -/
def properties (next : Nat) : List Entry → List String
  | [] => []
  | .positional value :: es =>
    (toString next ++ ": " ++ expression value) :: properties (next + 1) es
  | .keyed key value :: es =>
    (propertyKey key (expression key) ++ ": " ++ expression value) :: properties next es

end

/-- Indents the lines that are not empty; `fresh` says that a line starts here. -/
def indentFrom (fresh : Bool) : List Char → List Char
  | [] => []
  | c :: rest =>
    if c = '\n' then c :: indentFrom true rest
    else if fresh then ' ' :: ' ' :: c :: indentFrom false rest
    else c :: indentFrom false rest

/-- Indents the lines of a text that are not empty. -/
def indent (code : String) : String := String.ofList (indentFrom true code.toList)

/-- A body in braces. -/
def braced (code : String) : String :=
  if code = "" then "\x7b\n\x7d" else "\x7b\n" ++ indent code ++ "\n\x7d"

/-- Pieces of code on lines of their own. -/
def lines (codes : List String) : String := "\n".intercalate codes

mutual

/-- The code of a statement. -/
def statement : Stmt → String
  | .expression expr => expression expr ++ ";"
  | .function name params body =>
    "function " ++ name.lexeme ++ "(" ++ ", ".intercalate (params.map (·.lexeme)) ++ ") " ++
      braced (lines (statements body))
  | .conditional cond thenBranch none =>
    "if (" ++ expression cond ++ ") " ++ braced (statement thenBranch)
  | .conditional cond thenBranch (some elseBranch) =>
    "if (" ++ expression cond ++ ") " ++ braced (statement thenBranch) ++
      " else " ++ braced (statement elseBranch)
  | .returned _ none => "return;"
  | .returned _ (some value) => "return " ++ expression value ++ ";"
  | .declared name none => "let " ++ name.lexeme ++ ";"
  | .declared name (some initial) => "let " ++ name.lexeme ++ " = " ++ expression initial ++ ";"
  | .loop cond body => "while (" ++ expression cond ++ ") " ++ braced (statement body)
  | .block body => lines (statements body)

/-- The codes of statements in order. -/
def statements : List Stmt → List String
  | [] => []
  | s :: ss => statement s :: statements ss

end

/-- The code of a program: that of its statements, each on lines of its own. -/
def program (stmts : Program) : String := lines (stmts.map statement)

end JavaScript

end Moonbridge
