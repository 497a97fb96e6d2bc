import Moonbridge.Parser.Expression

/-!
# Statements and programs

A declaration is a function, a local variable or a statement. A statement is a conditional,
a loop, a block, a return or an expression with a semicolon; what starts with a brace is a
block. As for expressions, each production takes the productions it refers to as arguments.

A program is read to its end whatever happens. A declaration that fails is recorded and
skipped, and the first recorded error is the program's.
-/

namespace Moonbridge.Parser

/-- Declarations up to a token of the given kind or the end of the input. -/
def declarationsUntil (declaration : Parse Stmt) (stop : Kind) : Parse (List Stmt) :=
  repeated (fun (stmts : Array Stmt) => do
    if (← looksAt stop) || (← atEnd) then return .done stmts.toList
    return .again (stmts.push (← declaration))) #[]

/-- A function behind its keyword. -/
def functionRest (declaration : Parse Stmt) : Parse Stmt := do
  let name ← expect .identifier (.expected "function name")
  discard <| expect .leftParen (.expected "'(' after function name")
  let params ← do
    if ← looksAt .rightParen then pure []
    else commaSeparated (expect .identifier (.expected "parameter name")) "parameters"
  discard <| expect .rightParen (.expected "')' after parameters")
  let body ← declarationsUntil declaration .endKeyword
  discard <| expect .endKeyword (.expected "'end' after function body")
  return .function name params body

/-- A local variable behind its keyword. -/
def localVariable (expression : Parse Expr) : Parse Stmt := do
  let name ← expect .identifier (.expected "variable name")
  let initial ← do
    if (← accept .assign).isSome then pure (some (← expression)) else pure none
  discard <| expect .semicolon (.expected "';' after variable declaration")
  return .declared name initial

/-- A conditional behind its keyword. -/
def conditional (expression : Parse Expr) (statement : Parse Stmt) : Parse Stmt := do
  let cond ← expression
  discard <| expect .thenKeyword (.expected "'then' after condition")
  let thenBranch ← statement
  let elseBranch ← do
    if (← accept .elseKeyword).isSome then pure (some (← statement)) else pure none
  discard <| expect .endKeyword (.expected "'end' after if statement")
  return .conditional cond thenBranch elseBranch

/-- A loop behind its keyword. -/
def whileLoop (expression : Parse Expr) (statement : Parse Stmt) : Parse Stmt := do
  let cond ← expression
  discard <| expect .doKeyword (.expected "'do' after condition")
  let body ← statement
  discard <| expect .endKeyword (.expected "'end' after while body")
  return .loop cond body

/-- The statements of a block behind its opening brace. -/
def block (declaration : Parse Stmt) : Parse (List Stmt) := do
  let stmts ← declarationsUntil declaration .rightBrace
  discard <| expect .rightBrace (.expected "'\x7d' after block")
  return stmts

/-- A return behind its keyword. -/
def returned (expression : Parse Expr) : Parse Stmt := do
  let keyword ← previous
  let value ← do
    if ← looksAt .semicolon then pure none else pure (some (← expression))
  discard <| expect .semicolon (.expected "';' after return value")
  return .returned keyword value

/-- An expression with its semicolon. -/
def expressionStatement (expression : Parse Expr) : Parse Stmt := do
  let expr ← expression
  discard <| expect .semicolon (.expected "';' after expression")
  return .expression expr

/-- Any statement, by the token it starts with. -/
def statementRest (expression : Parse Expr) (statement declaration : Parse Stmt) :
    Parse Stmt := do
  if (← accept .ifKeyword).isSome then conditional expression statement
  else if (← accept .whileKeyword).isSome then whileLoop expression statement
  else if (← accept .leftBrace).isSome then return .block (← block declaration)
  else if (← accept .returnKeyword).isSome then returned expression
  else expressionStatement expression

/-- A function, a local variable or a statement. -/
def declarationOf (expression : Parse Expr) (function statement : Parse Stmt) :
    Parse Stmt := do
  if (← accept .functionKeyword).isSome then function
  else if (← accept .localKeyword).isSome then localVariable expression
  else statement

/-- The recursive productions. -/
structure Rules extends ExprRules where
  function : Parse Stmt
  statement : Parse Stmt

namespace Rules

/-- A declaration by the given productions. -/
def declaration (r : Rules) : Parse Stmt :=
  declarationOf r.expression r.function r.statement

/-- The productions where no further level may be opened. -/
def innermost : Rules where
  toExprRules := .innermost
  function := overrun "function"
  statement := overrun "statement"

/-- The productions one level around the given ones. -/
def around (inner : Rules) : Rules where
  toExprRules := inner.toExprRules.around
  function := nested "function" (functionRest inner.declaration)
  statement := nested "statement"
    (statementRest inner.expression inner.statement inner.declaration)

end Rules

/-- The productions where the given number of levels may still be opened. -/
def rules : Nat → Rules
  | 0 => .innermost
  | room + 1 => (rules room).around

/-- Runs a production with the productions that the open levels leave room for. -/
def here {α : Type} (production : Rules → Parse α) : Parse α := do
  production (rules (← get).room)

/-- An attempt at a declaration of the top level. -/
def attempt : Parse (Option Stmt) := do
  let stmt ← here (·.declaration)
  checkHeight stmt
  return some stmt

/-- Records a declaration that failed, and skips it. -/
def recover : Failure → Parse (Option Stmt)
  | .exhausted => throw .exhausted
  | .rejected error => do
    modify fun s => { s with depth := 0, errors := s.errors.push error }
    synchronize
    return none

/-- A declaration of the top level. One that fails is recorded and skipped. -/
def topLevel : Parse (Option Stmt) := tryCatch attempt recover

/-- The declarations up to the end of the input, without those that fail. -/
def declarations : Parse Program :=
  repeated (fun (stmts : Array Stmt) => do
    if ← atEnd then return .done stmts.toList
    match ← topLevel with
    | some stmt => return .again (stmts.push stmt)
    | none => return .again stmts) #[]

/-- A whole program: its declarations if no error is recorded, else the first error. -/
def program : Parse Program := do
  let stmts ← declarations
  match (← get).errors[0]? with
  | some error => throw (.rejected error)
  | none => return stmts

end Moonbridge.Parser

namespace Moonbridge

/-- The program that a token list holds. -/
def parse (tokens : List Token) : Except Parser.Failure Program :=
  match Parser.program.run (.start tokens) with
  | .ok program _ => .ok program
  | .error failure _ => .error failure

/-- Every error that reading a token list records, in order. -/
def diagnose (tokens : List Token) : List ParseError :=
  match Parser.program.run (.start tokens) with
  | .ok _ s | .error _ s => s.errors.toList

end Moonbridge
