import Moonbridge.Tree.Outline

/-!
# The state of the parser

The parser reads a token list from left to right. Its state holds the tokens on both sides
of the cursor, the number of recursive productions that are open and the errors recorded so
far. A production either answers, or fails and leaves the state as it was at the failure:
nothing is undone. A failure is an error in the program, or an attempt to read behind the
last token, which a list that ends with the mark of the end never allows.
-/

namespace Moonbridge

namespace Parser

/-- At most this many arguments or parameters stand in one list. -/
def maxListed : Nat := 255

/-- At most this many recursive productions are open at once. -/
def maxNesting : Int := 50

/-- At most this many levels a finished declaration has. -/
def maxHeight : Nat := 100

/-- What can be wrong with a program. -/
inductive Problem
  | expected (what : String)
  | tooDeep (what : String)
  | tooMany (what : String)
  | invalidTarget
  | other (text : String)
  deriving DecidableEq, Repr

/-- The wording of a problem. -/
def Problem.message : Problem → String
  | expected what => "expected " ++ what
  | tooDeep what => what ++ " nested too deeply"
  | tooMany what => "can't have more than " ++ toString maxListed ++ " " ++ what
  | invalidTarget => "invalid assignment target"
  | other text => text

end Parser

/-- A problem and the token it is located at. -/
structure ParseError where
  problem : Parser.Problem
  token : Token
  deriving DecidableEq, Repr

namespace ParseError

/-- The line of an error is that of its token. -/
def line (e : ParseError) : Int := e.token.line

/-- What is wrong, without the place. -/
def reason (e : ParseError) : String := e.problem.message

/-- The place of an error. -/
def place (e : ParseError) : String :=
  "line " ++ toString e.line ++
    (if e.token.isEnd then " at end of input" else " near '" ++ e.token.lexeme ++ "'")

/-- What is wrong, and where. -/
def message (e : ParseError) : String := e.place ++ ": " ++ e.reason

end ParseError

namespace Parser

/-- Why a production has no answer. -/
inductive Failure
  | rejected (error : ParseError)
  | exhausted
  deriving DecidableEq, Repr

/-- The cursor between the tokens, the open productions and the recorded errors. -/
structure State where
  /-- The tokens before the cursor, the nearest first. -/
  before : List Token
  /-- The tokens from the cursor on. -/
  after : List Token
  /-- The number of open recursive productions. -/
  depth : Int
  /-- The recorded errors, the oldest first. -/
  errors : Array ParseError

namespace State

/-- The parser in front of a token list. -/
def start (tokens : List Token) : State := ⟨[], tokens, 0, #[]⟩

/-- The whole token list, which no production changes. -/
def tokens (s : State) : List Token := s.before.reverse ++ s.after

/-- The index of the cursor. -/
def position (s : State) : Nat := s.before.length

@[simp] theorem tokens_start (tokens : List Token) : (start tokens).tokens = tokens := rfl

@[simp] theorem position_start (tokens : List Token) : (start tokens).position = 0 := rfl

/-- The number of recursive productions that may still be opened. -/
def room (s : State) : Nat := (maxNesting - s.depth).toNat

end State

end Parser

/-- A production of the parser. -/
abbrev Parse := EStateM Parser.Failure Parser.State

namespace Parser

/-- The token at the cursor. -/
def current : Parse Token := do
  match (← get).after with
  | t :: _ => pure t
  | [] => throw .exhausted

/-- The token at a distance from the cursor. Behind the end it is the last token; an index
before the start counts from the end. -/
def peek (offset : Int) : Parse Token := do
  let s ← get
  let found :=
    match offset with
    | .ofNat n => (s.after[n]?).or (s.after.getLast?.or s.before.head?)
    | .negSucc n => (s.before[n]?).or (s.after.reverse ++ s.before)[n - s.position]?
  match found with
  | some t => pure t
  | none => throw .exhausted

/-- The token before the cursor; at the start, the last token. -/
def previous : Parse Token := peek (-1)

/-- Whether the cursor is at the mark of the end. -/
def atEnd : Parse Bool := return (← current).isEnd

/-- Moves over the token at the cursor and answers it; the mark of the end is not passed. -/
def advance : Parse Token := do
  let t ← current
  unless t.isEnd do
    modify fun s => { s with before := t :: s.before, after := s.after.tail }
  return t

/-- Whether the cursor is at a token of the given kind. -/
def looksAt (kind : Kind) : Parse Bool := return (← current).kind == kind

/-- Moves over a token of the given kind, if the cursor is at one. -/
def accept (kind : Kind) : Parse (Option Token) := do
  if ← looksAt kind then return some (← advance) else return none

/-- Moves over a token of one of the given kinds, if the cursor is at one. -/
def acceptAny : List Kind → Parse (Option Token)
  | [] => return none
  | kind :: kinds => do
    match ← accept kind with
    | some t => return some t
    | none => acceptAny kinds

/-- Moves over a token of one of the given operators, if the cursor is at one. -/
def acceptOperator (ops : List BinaryOp) : Parse (Option Operator) := do
  match Operator.ofToken? (← current) with
  | some op => if op.op ∈ ops then discard advance; return some op else return none
  | none => return none

/-- Moves over a token of the given kind, or fails with a problem at the cursor. -/
def expect (kind : Kind) (problem : Problem) : Parse Token := do
  match ← accept kind with
  | some t => return t
  | none => throw (.rejected ⟨problem, ← current⟩)

/-- Records an error and goes on. -/
def report (token : Token) (problem : Problem) : Parse Unit :=
  modify fun s => { s with errors := s.errors.push ⟨problem, token⟩ }

/-- Opens a recursive production beyond the limit, which fails. -/
def overrun {α : Type} (what : String) : Parse α := do
  modify fun s => { s with depth := s.depth + 1 }
  throw (.rejected ⟨.tooDeep what, ← current⟩)

/-- Opens a recursive production, if the limit allows one more. -/
def enter (what : String) : Parse Unit := do
  if maxNesting ≤ (← get).depth then overrun what
  else modify fun s => { s with depth := s.depth + 1 }

/-- Closes a recursive production. -/
def leave : Parse Unit := modify fun s => { s with depth := s.depth - 1 }

/-- Records an error if a declaration has too many levels. -/
def checkHeight (stmt : Stmt) : Parse Unit := do
  match Outline.firstBeyond maxHeight [⟨stmt.outline, 1, ← previous⟩] with
  | some token => report token (.tooDeep "expression")
  | none => return ()

/-- What a round of a loop decides: another round, or the loop's answer. -/
inductive Round (α β : Type) where
  | again (next : α)
  | done (answer : β)

/-- Runs rounds until one has the answer, at most one more than `bound` has tokens. -/
def rounds {α β : Type} (round : α → Parse (Round α β)) :
    (bound : List Token) → α → Parse β
  | [], a => do
    match ← round a with
    | .again _ => throw .exhausted
    | .done b => return b
  | _ :: bound, a => do
    match ← round a with
    | .again a => rounds round bound a
    | .done b => return b

/-- Runs rounds until one has the answer. A round that asks for another one has moved the
cursor, so that the tokens from the cursor on bound the number of rounds. -/
def repeated {α β : Type} (round : α → Parse (Round α β)) (start : α) : Parse β := do
  rounds round (← get).after start

/-- Whether a token of this kind begins a statement wherever it stands. -/
def startsStatement : Kind → Bool
  | .functionKeyword | .localKeyword | .ifKeyword | .whileKeyword | .returnKeyword => true
  | _ => false

/-- Moves on to the next place where a statement may begin: over the token at the cursor in
any case, then up to a token behind a semicolon, one that begins a statement, or the end. -/
def synchronize : Parse Unit := do
  discard advance
  repeated (fun (_ : Unit) => do
    if ← atEnd then return .done ()
    if (← previous).kind == .semicolon then return .done ()
    if startsStatement (← current).kind then return .done ()
    discard advance
    return .again ()) ()

end Parser

end Moonbridge
