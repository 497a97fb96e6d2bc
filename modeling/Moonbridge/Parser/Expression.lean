import Moonbridge.Parser.State

/-!
# Expressions

Each production takes the productions it refers to as arguments, so that none of them is
recursive. In order of binding, the loosest first:

* an assignment: a name, `=` and an assignment, or a disjunction;
* disjunction, conjunction, equality, comparison, sum and product, each a chain of operands
  of the next tighter one that associates to the left;
* a minus sign and a unary expression, or a call;
* a primary followed by argument lists, field names and indices;
* a primary: a number, a text, `nil`, a name, a table or an expression in parentheses.
-/

namespace Moonbridge.Parser

/-- Items separated by commas. A list that is too long is reported at each surplus item. -/
def commaSeparated {α : Type} (item : Parse α) (what : String) : Parse (List α) := do
  let first ← item
  repeated (fun (items : Array α) => do
    match ← accept .comma with
    | none => return .done items.toList
    | some _ =>
      if maxListed ≤ items.size then report (← current) (.tooMany what)
      return .again (items.push (← item))) #[first]

/-- Operands joined by operators that associate to the left. -/
def chain (ops : List BinaryOp) (operand : Parse Expr) : Parse Expr := do
  let first ← operand
  repeated (fun left => do
    match ← acceptOperator ops with
    | none => return .done left
    | some op => return .again (.binary left op (← operand))) first

/-- An entry of a table: a bracketed key, a name as key, or no key. -/
def entry (expression : Parse Expr) : Parse Entry := do
  if (← accept .leftBracket).isSome then
    let key ← expression
    discard <| expect .rightBracket (.expected "']' after table key")
    discard <| expect .assign (.expected "'=' after table key")
    return .keyed key (← expression)
  let named ← do
    if ← looksAt .identifier then pure ((← peek 1).kind == .assign) else pure false
  if named then
    let name ← advance
    discard advance
    return .keyed (.literal (.text name.lexeme)) (← expression)
  return .positional (← expression)

/-- A table behind its opening brace. A comma may follow the last entry. -/
def table (expression : Parse Expr) : Parse Expr := do
  let entries ← repeated (fun (entries : Array Entry) => do
    if ← looksAt .rightBrace then return .done entries
    let entries := entries.push (← entry expression)
    if (← accept .comma).isSome then return .again entries else return .done entries) #[]
  discard <| expect .rightBrace (.expected "'\x7d' after table entries")
  return .table entries.toList

/-- A primary expression. -/
def primary (expression : Parse Expr) : Parse Expr := do
  let t ← current
  match t.kind with
  | .number | .string => discard advance; return .literal t.literal
  | .nilKeyword => discard advance; return .literal .nil
  | .identifier => discard advance; return .name t
  | .leftBrace => discard advance; table expression
  | .leftParen =>
    discard advance
    let inner ← expression
    discard <| expect .rightParen (.expected "')' after expression")
    return .grouping inner
  | _ => throw (.rejected ⟨.expected "expression", t⟩)

/-- The arguments of a call, behind the opening parenthesis. -/
def finishCall (expression : Parse Expr) (callee : Expr) : Parse Expr := do
  let args ← do
    if ← looksAt .rightParen then pure [] else commaSeparated expression "arguments"
  let paren ← expect .rightParen (.expected "')' after arguments")
  return .call callee paren args

/-- A primary expression and the argument lists, field names and indices behind it. -/
def call (expression : Parse Expr) : Parse Expr := do
  let first ← primary expression
  repeated (fun callee => do
    if (← accept .leftParen).isSome then
      return .again (← finishCall expression callee)
    if (← accept .dot).isSome then
      let field ← expect .identifier (.expected "field name after '.'")
      return .again (.index callee (.literal (.text field.lexeme)))
    if (← accept .leftBracket).isSome then
      let key ← expression
      discard <| expect .rightBracket (.expected "']' after index")
      return .again (.index callee key)
    return .done callee) first

/-- A minus sign in front of a deeper unary expression, or a call. -/
def negation (deeper expression : Parse Expr) : Parse Expr := do
  match ← accept .minus with
  | some op => return .unary op (← deeper)
  | none => call expression

/-- A production that opens one more level around another one. -/
def nested {α : Type} (what : String) (inner : Parse α) : Parse α := do
  enter what
  let answer ← inner
  leave
  return answer

/-- A product: unary expressions joined by `*` and `/`. -/
def factor (unary : Parse Expr) : Parse Expr := chain [.times, .divide] unary

/-- A sum: products joined by `+` and `-`. -/
def term (unary : Parse Expr) : Parse Expr := chain [.plus, .minus] (factor unary)

/-- Sums compared by order. -/
def comparison (unary : Parse Expr) : Parse Expr :=
  chain [.less, .lessEqual, .greater, .greaterEqual] (term unary)

/-- Comparisons compared for equality. -/
def equality (unary : Parse Expr) : Parse Expr :=
  chain [.equal, .notEqual] (comparison unary)

/-- Equalities joined by `and`. -/
def conjunction (unary : Parse Expr) : Parse Expr := chain [.and] (equality unary)

/-- Conjunctions joined by `or`. -/
def disjunction (unary : Parse Expr) : Parse Expr := chain [.or] (conjunction unary)

/-- A disjunction, and behind an equals sign the value assigned to it. Only a name can be
assigned to: any other target is reported, and the value is dropped. -/
def assignment (unary deeper : Parse Expr) : Parse Expr := do
  let target ← disjunction unary
  match ← accept .assign with
  | none => return target
  | some equals =>
    let value ← deeper
    match target with
    | .name token => return .assign token value
    | _ =>
      report equals .invalidTarget
      return target

/-- The recursive expression productions. -/
structure ExprRules where
  unary : Parse Expr
  expression : Parse Expr

namespace ExprRules

/-- The productions where no further level may be opened. -/
def innermost : ExprRules where
  unary := negation (overrun "expression") (overrun "expression")
  expression := overrun "expression"

/-- The productions one level around the given ones. -/
def around (inner : ExprRules) : ExprRules :=
  let expression := nested "expression" (assignment inner.unary inner.expression)
  { unary := negation (nested "expression" inner.unary) expression, expression }

end ExprRules

end Moonbridge.Parser
