import Moonbridge.Proofs.Parser.Productions

/-!
# The grammar and its derivations

A phrase is a derivation of the grammar, indexed by the category it derives:

    declaration = "function" NAME "(" [parameters] ")" declaration* "end"
                | "local" NAME ["=" expression] ";" | statement
    statement   = "if" expression "then" statement ["else" statement] "end"
                | "while" expression "do" statement "end" | "\x7b" declaration* "\x7d"
                | "return" [expression] ";" | expression ";"
    expression  = tier 6 ["=" expression]
    tier (n+1)  = tier n (operator n, tier n)*        tier 0 = "-" tier 0 | call
    call        = primary ("(" [arguments] ")" | "." NAME | "[" expression "]")*
    primary     = NUMBER | STRING | "nil" | NAME | "(" expression ")"
                | "\x7b" (entry ",")* [entry] "\x7d"
    entry       = "[" expression "]" "=" expression | NAME "=" expression | expression

Repetitions are derived from the left, which is how operators associate. A phrase has a token
sequence and the tree it stands for. The documented grammar lets only a bare name stand left of
an equals sign; the wider one here admits any disjunction, so that the errors of a phrase can be
told.
-/

open Moonbridge.Parser (tierOps maxListed)

namespace Moonbridge.Grammar

/-- A token of a given kind. -/
abbrev Of (k : Kind) : Type := {t : Token // t.kind = k}

/-- The syntactic categories. -/
inductive Category
  | primary | call | tier (n : Nat) | expression | arguments | entry | fields
  | parameters | statement | declaration | declarations
  deriving DecidableEq, Repr

/-- What a phrase of a category stands for. -/
abbrev Category.Tree : Category → Type
  | primary | call | tier _ | expression => Expr
  | arguments => List Expr
  | entry => Entry
  | fields => List Entry
  | parameters => List Token
  | statement | declaration => Stmt
  | declarations => List Stmt

/-- The derivations of a category. -/
inductive Phrase : Category → Type
  | literal (t : Token) (h : t.kind = .number ∨ t.kind = .string) : Phrase .primary
  | nil (t : Of .nilKeyword) : Phrase .primary
  | name (t : Of .identifier) : Phrase .primary
  | table (opened : Of .leftBrace) (fields : Phrase .fields) (closed : Of .rightBrace) :
      Phrase .primary
  | tableLast (opened : Of .leftBrace) (fields : Phrase .fields) (last : Phrase .entry)
      (closed : Of .rightBrace) : Phrase .primary
  | grouping (opened : Of .leftParen) (inner : Phrase .expression) (closed : Of .rightParen) :
      Phrase .primary
  | noFields : Phrase .fields
  | moreFields (fields : Phrase .fields) (next : Phrase .entry) (comma : Of .comma) :
      Phrase .fields
  | positional (value : Phrase .expression) : Phrase .entry
  | named (name : Of .identifier) (equals : Of .assign) (value : Phrase .expression) :
      Phrase .entry
  | keyed (opened : Of .leftBracket) (key : Phrase .expression) (closed : Of .rightBracket)
      (equals : Of .assign) (value : Phrase .expression) : Phrase .entry
  | single (primary : Phrase .primary) : Phrase .call
  | called (callee : Phrase .call) (opened : Of .leftParen) (closed : Of .rightParen) :
      Phrase .call
  | calledWith (callee : Phrase .call) (opened : Of .leftParen) (args : Phrase .arguments)
      (closed : Of .rightParen) : Phrase .call
  | field (table : Phrase .call) (dot : Of .dot) (name : Of .identifier) : Phrase .call
  | index (table : Phrase .call) (opened : Of .leftBracket) (key : Phrase .expression)
      (closed : Of .rightBracket) : Phrase .call
  | argument (value : Phrase .expression) : Phrase .arguments
  | moreArguments (args : Phrase .arguments) (comma : Of .comma) (value : Phrase .expression) :
      Phrase .arguments
  | unsigned (call : Phrase .call) : Phrase (.tier 0)
  | negated (minus : Of .minus) (operand : Phrase (.tier 0)) : Phrase (.tier 0)
  | operand {n : Nat} (only : Phrase (.tier n)) : Phrase (.tier (n + 1))
  | joined {n : Nat} (left : Phrase (.tier (n + 1))) (op : Operator) (h : op.op ∈ tierOps n)
      (right : Phrase (.tier n)) : Phrase (.tier (n + 1))
  | value (only : Phrase (.tier 6)) : Phrase .expression
  | assigned (target : Phrase (.tier 6)) (equals : Of .assign) (value : Phrase .expression) :
      Phrase .expression
  | parameter (name : Of .identifier) : Phrase .parameters
  | moreParameters (params : Phrase .parameters) (comma : Of .comma) (name : Of .identifier) :
      Phrase .parameters
  | conditional (ifWord : Of .ifKeyword) (cond : Phrase .expression)
      (thenWord : Of .thenKeyword) (body : Phrase .statement) (endWord : Of .endKeyword) :
      Phrase .statement
  | alternative (ifWord : Of .ifKeyword) (cond : Phrase .expression)
      (thenWord : Of .thenKeyword) (body : Phrase .statement) (elseWord : Of .elseKeyword)
      (otherwise : Phrase .statement) (endWord : Of .endKeyword) : Phrase .statement
  | loop (whileWord : Of .whileKeyword) (cond : Phrase .expression) (doWord : Of .doKeyword)
      (body : Phrase .statement) (endWord : Of .endKeyword) : Phrase .statement
  | block (opened : Of .leftBrace) (body : Phrase .declarations) (closed : Of .rightBrace) :
      Phrase .statement
  | returned (keyword : Of .returnKeyword) (semicolon : Of .semicolon) : Phrase .statement
  | returnedValue (keyword : Of .returnKeyword) (value : Phrase .expression)
      (semicolon : Of .semicolon) : Phrase .statement
  | expressed (expr : Phrase .expression) (semicolon : Of .semicolon) : Phrase .statement
  | procedure (keyword : Of .functionKeyword) (name : Of .identifier) (opened : Of .leftParen)
      (closed : Of .rightParen) (body : Phrase .declarations) (endWord : Of .endKeyword) :
      Phrase .declaration
  | function (keyword : Of .functionKeyword) (name : Of .identifier) (opened : Of .leftParen)
      (params : Phrase .parameters) (closed : Of .rightParen) (body : Phrase .declarations)
      (endWord : Of .endKeyword) : Phrase .declaration
  | declared (keyword : Of .localKeyword) (name : Of .identifier) (semicolon : Of .semicolon) :
      Phrase .declaration
  | initialized (keyword : Of .localKeyword) (name : Of .identifier) (equals : Of .assign)
      (initial : Phrase .expression) (semicolon : Of .semicolon) : Phrase .declaration
  | stated (statement : Phrase .statement) : Phrase .declaration
  | noDeclarations : Phrase .declarations
  | moreDeclarations (earlier : Phrase .declarations) (next : Phrase .declaration) :
      Phrase .declarations

namespace Phrase

/-- The tokens of a phrase in order. -/
def tokens {c : Category} : Phrase c → List Token
  | literal t _ => [t]
  | nil t => [t.1]
  | name t => [t.1]
  | table o fs c => o.1 :: fs.tokens ++ [c.1]
  | tableLast o fs e c => o.1 :: fs.tokens ++ e.tokens ++ [c.1]
  | grouping o e c => o.1 :: e.tokens ++ [c.1]
  | noFields => []
  | moreFields fs e c => fs.tokens ++ e.tokens ++ [c.1]
  | positional e => e.tokens
  | named t q e => t.1 :: q.1 :: e.tokens
  | keyed o k c q e => o.1 :: k.tokens ++ c.1 :: q.1 :: e.tokens
  | single p => p.tokens
  | called f o c => f.tokens ++ [o.1, c.1]
  | calledWith f o as c => f.tokens ++ o.1 :: as.tokens ++ [c.1]
  | field e d t => e.tokens ++ [d.1, t.1]
  | index e o k c => e.tokens ++ o.1 :: k.tokens ++ [c.1]
  | argument e => e.tokens
  | moreArguments as c e => as.tokens ++ c.1 :: e.tokens
  | unsigned e => e.tokens
  | negated m e => m.1 :: e.tokens
  | operand e => e.tokens
  | joined l op _ r => l.tokens ++ op.token :: r.tokens
  | value e => e.tokens
  | assigned t q e => t.tokens ++ q.1 :: e.tokens
  | parameter t => [t.1]
  | moreParameters ps c t => ps.tokens ++ [c.1, t.1]
  | conditional i e t s d => i.1 :: e.tokens ++ t.1 :: s.tokens ++ [d.1]
  | alternative i e t s l r d => i.1 :: e.tokens ++ t.1 :: s.tokens ++ l.1 :: r.tokens ++ [d.1]
  | loop w e t s d => w.1 :: e.tokens ++ t.1 :: s.tokens ++ [d.1]
  | block o ds c => o.1 :: ds.tokens ++ [c.1]
  | returned k s => [k.1, s.1]
  | returnedValue k e s => k.1 :: e.tokens ++ [s.1]
  | expressed e s => e.tokens ++ [s.1]
  | procedure k n o c ds d => k.1 :: n.1 :: o.1 :: c.1 :: ds.tokens ++ [d.1]
  | function k n o ps c ds d => k.1 :: n.1 :: o.1 :: ps.tokens ++ c.1 :: ds.tokens ++ [d.1]
  | declared k n s => [k.1, n.1, s.1]
  | initialized k n q e s => k.1 :: n.1 :: q.1 :: e.tokens ++ [s.1]
  | stated s => s.tokens
  | noDeclarations => []
  | moreDeclarations ds d => ds.tokens ++ d.tokens

/-- The tree of an assignment. Only a name is assigned to; any other target stands alone. -/
def assignedTree (target value : Expr) : Expr :=
  match target with
  | .name token => .assign token value
  | other => other

/-- The tree that a phrase stands for. -/
def tree : {c : Category} → Phrase c → c.Tree
  | _, literal t _ => Expr.literal t.literal
  | _, nil _ => Expr.literal .nil
  | _, name t => Expr.name t.1
  | _, table _ fs _ => Expr.table fs.tree
  | _, tableLast _ fs e _ => Expr.table (fs.tree ++ [e.tree])
  | _, grouping _ e _ => Expr.grouping e.tree
  | _, noFields => ([] : List Entry)
  | _, moreFields fs e _ => fs.tree ++ [e.tree]
  | _, positional e => Entry.positional e.tree
  | _, named t _ e => Entry.keyed (.literal (.text t.1.lexeme)) e.tree
  | _, keyed _ k _ _ e => Entry.keyed k.tree e.tree
  | _, single p => p.tree
  | _, called f _ c => Expr.call f.tree c.1 []
  | _, calledWith f _ as c => Expr.call f.tree c.1 as.tree
  | _, field e _ t => Expr.index e.tree (.literal (.text t.1.lexeme))
  | _, index e _ k _ => Expr.index e.tree k.tree
  | _, argument e => [e.tree]
  | _, moreArguments as _ e => as.tree ++ [e.tree]
  | _, unsigned e => e.tree
  | _, negated m e => Expr.unary m.1 e.tree
  | _, operand e => e.tree
  | _, joined l op _ r => Expr.binary l.tree op r.tree
  | _, value e => e.tree
  | _, assigned t _ e => assignedTree t.tree e.tree
  | _, parameter t => [t.1]
  | _, moreParameters ps _ t => ps.tree ++ [t.1]
  | _, conditional _ e _ s _ => Stmt.conditional e.tree s.tree none
  | _, alternative _ e _ s _ r _ => Stmt.conditional e.tree s.tree (some r.tree)
  | _, loop _ e _ s _ => Stmt.loop e.tree s.tree
  | _, block _ ds _ => Stmt.block ds.tree
  | _, returned k _ => Stmt.returned k.1 none
  | _, returnedValue k e _ => Stmt.returned k.1 (some e.tree)
  | _, expressed e _ => Stmt.expression e.tree
  | _, procedure _ n _ _ ds _ => Stmt.function n.1 [] ds.tree
  | _, function _ n _ ps _ ds _ => Stmt.function n.1 ps.tree ds.tree
  | _, declared _ n _ => Stmt.declared n.1 none
  | _, initialized _ n _ e _ => Stmt.declared n.1 (some e.tree)
  | _, stated s => s.tree
  | _, noDeclarations => ([] : List Stmt)
  | _, moreDeclarations ds d => ds.tree ++ [d.tree]

/-- The most recursive productions that are open at once: functions, statements, expressions
and minus signs. -/
def nesting {c : Category} : Phrase c → Nat
  | literal _ _ | nil _ | name _ | noFields | parameter _ | moreParameters _ _ _
  | declared _ _ _ | noDeclarations => 0
  | table _ fs _ => fs.nesting
  | tableLast _ fs e _ => max fs.nesting e.nesting
  | grouping _ e _ => e.nesting
  | moreFields fs e _ => max fs.nesting e.nesting
  | positional e | named _ _ e => e.nesting
  | keyed _ k _ _ e => max k.nesting e.nesting
  | single p => p.nesting
  | called f _ _ => f.nesting
  | calledWith f _ as _ => max f.nesting as.nesting
  | field e _ _ => e.nesting
  | index e _ k _ => max e.nesting k.nesting
  | argument e => e.nesting
  | moreArguments as _ e => max as.nesting e.nesting
  | unsigned e => e.nesting
  | negated _ e => e.nesting + 1
  | operand e => e.nesting
  | joined l _ _ r => max l.nesting r.nesting
  | value e => e.nesting + 1
  | assigned t _ e => max t.nesting e.nesting + 1
  | conditional _ e _ s _ => max e.nesting s.nesting + 1
  | alternative _ e _ s _ r _ => max (max e.nesting s.nesting) r.nesting + 1
  | loop _ e _ s _ => max e.nesting s.nesting + 1
  | block _ ds _ => ds.nesting + 1
  | returned _ _ => 1
  | returnedValue _ e _ => e.nesting + 1
  | expressed e _ => e.nesting + 1
  | procedure _ _ _ _ ds _ => ds.nesting + 1
  | function _ _ _ _ _ ds _ => ds.nesting + 1
  | initialized _ _ _ e _ => e.nesting
  | stated s => s.nesting
  | moreDeclarations ds d => max ds.nesting d.nesting

/-- The error of one more item in a list of `count` items: a list that is full is reported at
the item's first token. -/
def surplus (what : String) (count : Nat) (item : List Token) : List ParseError :=
  if maxListed ≤ count then (item.take 1).map fun t => ⟨.tooMany what, t⟩ else []

/-- The error of an assignment to something that is no name. -/
def mistarget (target : Expr) (equals : Token) : List ParseError :=
  match target with
  | .name _ => []
  | _ => [⟨.invalidTarget, equals⟩]

/-- The errors that a phrase gives rise to, in the order in which they are recorded. -/
def errors {c : Category} : Phrase c → List ParseError
  | literal _ _ | nil _ | name _ | noFields | parameter _ | declared _ _ _
  | returned _ _ | noDeclarations => []
  | table _ fs _ => fs.errors
  | tableLast _ fs e _ => fs.errors ++ e.errors
  | grouping _ e _ => e.errors
  | moreFields fs e _ => fs.errors ++ e.errors
  | positional e | named _ _ e => e.errors
  | keyed _ k _ _ e => k.errors ++ e.errors
  | single p => p.errors
  | called f _ _ => f.errors
  | calledWith f _ as _ => f.errors ++ as.errors
  | field e _ _ => e.errors
  | index e _ k _ => e.errors ++ k.errors
  | argument e => e.errors
  | moreArguments as _ e => as.errors ++ surplus "arguments" as.tree.length e.tokens ++ e.errors
  | unsigned e | negated _ e | operand e | value e => e.errors
  | joined l _ _ r => l.errors ++ r.errors
  | assigned t q e => t.errors ++ e.errors ++ mistarget t.tree q.1
  | moreParameters ps _ t => ps.errors ++ surplus "parameters" ps.tree.length [t.1]
  | conditional _ e _ s _ | loop _ e _ s _ => e.errors ++ s.errors
  | alternative _ e _ s _ r _ => e.errors ++ s.errors ++ r.errors
  | block _ ds _ | procedure _ _ _ _ ds _ => ds.errors
  | returnedValue _ e _ | expressed e _ | initialized _ _ _ e _ => e.errors
  | function _ _ _ ps _ ds _ => ps.errors ++ ds.errors
  | stated s => s.errors
  | moreDeclarations ds d => ds.errors ++ d.errors

/-- Whether an expression could be taken for a table entry with a name as key. -/
def StartsAsKey (ts : List Token) : Prop :=
  ∃ name equals rest, ts = name :: equals :: rest ∧ name.kind = .identifier ∧
    equals.kind = .assign

/-- Whether an expression could be taken for a block. -/
def StartsAsBlock (ts : List Token) : Prop := ∃ brace rest, ts = brace :: rest ∧
  brace.kind = .leftBrace

/-- A phrase in which an expression that could be taken for a keyed entry or for a block does
not stand where it would be. -/
def Clear {c : Category} : Phrase c → Prop
  | literal _ _ | nil _ | name _ | noFields | parameter _ | moreParameters _ _ _
  | declared _ _ _ | returned _ _ | noDeclarations => True
  | table _ fs _ => fs.Clear
  | tableLast _ fs e _ => fs.Clear ∧ e.Clear
  | grouping _ e _ => e.Clear
  | moreFields fs e _ => fs.Clear ∧ e.Clear
  | positional e => ¬ StartsAsKey e.tokens ∧ e.Clear
  | named _ _ e => e.Clear
  | keyed _ k _ _ e => k.Clear ∧ e.Clear
  | single p => p.Clear
  | called f _ _ => f.Clear
  | calledWith f _ as _ => f.Clear ∧ as.Clear
  | field e _ _ => e.Clear
  | index e _ k _ => e.Clear ∧ k.Clear
  | argument e => e.Clear
  | moreArguments as _ e => as.Clear ∧ e.Clear
  | unsigned e | negated _ e | operand e | value e => e.Clear
  | joined l _ _ r => l.Clear ∧ r.Clear
  | assigned t _ e => t.Clear ∧ e.Clear
  | conditional _ e _ s _ | loop _ e _ s _ => e.Clear ∧ s.Clear
  | alternative _ e _ s _ r _ => e.Clear ∧ s.Clear ∧ r.Clear
  | block _ ds _ | procedure _ _ _ _ ds _ | function _ _ _ _ _ ds _ => ds.Clear
  | returnedValue _ e _ | initialized _ _ _ e _ => e.Clear
  | expressed e _ => ¬ StartsAsBlock e.tokens ∧ e.Clear
  | stated s => s.Clear
  | moreDeclarations ds d => ds.Clear ∧ d.Clear

/-- A phrase of the documented grammar: what stands left of an equals sign is a bare name. -/
def Documented {c : Category} : Phrase c → Prop
  | literal _ _ | nil _ | name _ | noFields | parameter _ | moreParameters _ _ _
  | declared _ _ _ | returned _ _ | noDeclarations => True
  | table _ fs _ => fs.Documented
  | tableLast _ fs e _ => fs.Documented ∧ e.Documented
  | grouping _ e _ => e.Documented
  | moreFields fs e _ => fs.Documented ∧ e.Documented
  | positional e | named _ _ e => e.Documented
  | keyed _ k _ _ e => k.Documented ∧ e.Documented
  | single p => p.Documented
  | called f _ _ => f.Documented
  | calledWith f _ as _ => f.Documented ∧ as.Documented
  | field e _ _ => e.Documented
  | index e _ k _ => e.Documented ∧ k.Documented
  | argument e => e.Documented
  | moreArguments as _ e => as.Documented ∧ e.Documented
  | unsigned e | negated _ e | operand e | value e => e.Documented
  | joined l _ _ r => l.Documented ∧ r.Documented
  | assigned t _ e => (∃ name : Of .identifier, t.tokens = [name.1]) ∧ e.Documented
  | conditional _ e _ s _ | loop _ e _ s _ => e.Documented ∧ s.Documented
  | alternative _ e _ s _ r _ => e.Documented ∧ s.Documented ∧ r.Documented
  | block _ ds _ | procedure _ _ _ _ ds _ | function _ _ _ _ _ ds _ => ds.Documented
  | returnedValue _ e _ | expressed e _ | initialized _ _ _ e _ => e.Documented
  | stated s => s.Documented
  | moreDeclarations ds d => ds.Documented ∧ d.Documented

/-- The number of items in the longest list of arguments or parameters. -/
def longestList {c : Category} : Phrase c → Nat
  | literal _ _ | nil _ | name _ | noFields | declared _ _ _ | returned _ _
  | noDeclarations => 0
  | table _ fs _ => fs.longestList
  | tableLast _ fs e _ | moreFields fs e _ => max fs.longestList e.longestList
  | grouping _ e _ | positional e | named _ _ e => e.longestList
  | keyed _ k _ _ e => max k.longestList e.longestList
  | single p => p.longestList
  | called f _ _ => f.longestList
  | calledWith f _ as _ => max f.longestList as.longestList
  | field e _ _ => e.longestList
  | index e _ k _ => max e.longestList k.longestList
  | argument e => max 1 e.longestList
  | moreArguments as _ e => max (as.tree.length + 1) (max as.longestList e.longestList)
  | unsigned e | negated _ e | operand e | value e => e.longestList
  | joined l _ _ r => max l.longestList r.longestList
  | assigned t _ e => max t.longestList e.longestList
  | parameter _ => 1
  | moreParameters ps _ _ => max (ps.tree.length + 1) ps.longestList
  | conditional _ e _ s _ | loop _ e _ s _ => max e.longestList s.longestList
  | alternative _ e _ s _ r _ => max (max e.longestList s.longestList) r.longestList
  | block _ ds _ | procedure _ _ _ _ ds _ => ds.longestList
  | returnedValue _ e _ | expressed e _ | initialized _ _ _ e _ => e.longestList
  | function _ _ _ ps _ ds _ => max ps.longestList ds.longestList
  | stated s => s.longestList
  | moreDeclarations ds d => max ds.longestList d.longestList

section Parameters

variable (d : Phrase .parameters)

/-- There is no expression in a list of parameters. -/
theorem clear_parameters : d.Clear := by
  cases d <;> simp only [Clear]

/-- Parameters open no production. -/
theorem nesting_parameters : d.nesting = 0 := by
  cases d <;> simp only [nesting]

/-- Nothing but tokens stands in parameters, so that they cannot leave the documented forms. -/
theorem documented_parameters : d.Documented := by
  cases d <;> simp only [Documented]

end Parameters

section BareName

/-- A name as an operand of any operator. -/
def bareName (name : Of .identifier) : Phrase (.tier 6) :=
  .operand (.operand (.operand (.operand (.operand (.operand (.unsigned (.single (.name name))))))))

variable (name : Of .identifier)

@[simp] theorem tokens_bareName : (bareName name).tokens = [name.1] := by
  simp only [bareName, tokens]

@[simp] theorem tree_bareName : (bareName name).tree = Expr.name name.1 := by
  simp only [bareName, tree]

@[simp] theorem errors_bareName : (bareName name).errors = [] := by
  simp only [bareName, errors]

@[simp] theorem longestList_bareName : (bareName name).longestList = 0 := by
  simp only [bareName, longestList]

end BareName

end Phrase

end Moonbridge.Grammar
