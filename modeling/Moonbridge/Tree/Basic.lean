import Moonbridge.Token.Basic

/-!
# Program trees

A program is a list of statements. Trees keep the tokens that diagnostics and output need.
A binary node holds its operator together with the token it was read from, so that every
tree has an operator of the language at each binary node; a table entry has a key or is
positional; a field access is an index by a text.
-/

namespace Moonbridge

/-- The binary operators. -/
inductive BinaryOp
  | plus | minus | times | divide
  | equal | notEqual | less | lessEqual | greater | greaterEqual
  | and | or
  deriving DecidableEq, Repr

namespace BinaryOp

/-- The lexical category of an operator. -/
def kind : BinaryOp → Kind
  | plus => .plus
  | minus => .minus
  | times => .star
  | divide => .slash
  | equal => .equal
  | notEqual => .notEqual
  | less => .less
  | lessEqual => .lessEqual
  | greater => .greater
  | greaterEqual => .greaterEqual
  | and => .andKeyword
  | or => .orKeyword

/-- The operator of a lexical category, where it is one. -/
def ofKind? : Kind → Option BinaryOp
  | .plus => some plus
  | .minus => some minus
  | .star => some times
  | .slash => some divide
  | .equal => some equal
  | .notEqual => some notEqual
  | .less => some less
  | .lessEqual => some lessEqual
  | .greater => some greater
  | .greaterEqual => some greaterEqual
  | .andKeyword => some and
  | .orKeyword => some or
  | _ => none

@[simp] theorem ofKind?_kind (op : BinaryOp) : ofKind? op.kind = some op := by
  cases op <;> rfl

/-- The categories of the operators are exactly those that `ofKind?` accepts. -/
theorem ofKind?_eq_some_iff {k : Kind} {op : BinaryOp} : ofKind? k = some op ↔ k = op.kind := by
  constructor
  · intro h
    cases k <;> simp only [ofKind?, Option.some.injEq, reduceCtorEq] at h <;> subst h <;> rfl
  · rintro rfl
    exact ofKind?_kind op

end BinaryOp

/-- A binary operator together with the token it was read from. -/
structure Operator where
  token : Token
  op : BinaryOp
  kind_eq : token.kind = op.kind
  deriving DecidableEq, Repr

/-- The operator that a token denotes, where it denotes one. -/
def Operator.ofToken? (t : Token) : Option Operator :=
  match h : BinaryOp.ofKind? t.kind with
  | some op => some ⟨t, op, BinaryOp.ofKind?_eq_some_iff.mp h⟩
  | none => none

mutual

/-- An expression. -/
inductive Expr
  | binary (left : Expr) (op : Operator) (right : Expr)
  | grouping (inner : Expr)
  | literal (value : Literal)
  | unary (op : Token) (operand : Expr)
  | name (token : Token)
  | assign (target : Token) (value : Expr)
  | call (callee : Expr) (paren : Token) (args : List Expr)
  | table (entries : List Entry)
  | index (table key : Expr)

/-- An entry of a table. -/
inductive Entry
  | positional (value : Expr)
  | keyed (key value : Expr)

end

/-- A statement. -/
inductive Stmt
  | expression (expr : Expr)
  | function (name : Token) (params : List Token) (body : List Stmt)
  | conditional (cond : Expr) (thenBranch : Stmt) (elseBranch : Option Stmt)
  | returned (keyword : Token) (value : Option Expr)
  | declared (name : Token) (initial : Option Expr)
  | loop (cond : Expr) (body : Stmt)
  | block (statements : List Stmt)

/-- Whether an entry has a key. -/
def Entry.isKeyed : Entry → Bool
  | positional _ => false
  | keyed _ _ => true

/-- A program is the list of its top-level statements. -/
abbrev Program := List Stmt

end Moonbridge
