import Moonbridge.Proofs.Parser.Run

/-!
# The shape of the productions

The rounds of the loops get names, and the productions that look ahead or back are written so
that they depend on nothing but the tokens they take: the keyword of a return is the one that
was accepted, and a table entry with a name as key is told by the two tokens at the cursor.
-/

namespace Moonbridge.Parser

section Loops

variable {α : Type}

/-- One more item of a list, if a comma follows. -/
def commaRound (item : Parse α) (what : String) (items : Array α) :
    Parse (Round (Array α) (List α)) := do
  match ← accept .comma with
  | none => return .done items.toList
  | some _ =>
    if maxListed ≤ items.size then report (← current) (.tooMany what)
    return .again (items.push (← item))

/-- A list is its first item, and rounds of the others. -/
theorem commaSeparated_eq (item : Parse α) (what : String) :
    commaSeparated item what = item >>= fun first =>
      repeated (commaRound item what) #[first] := rfl

/-- One more operand, if an operator follows. -/
def chainRound (ops : List BinaryOp) (operand : Parse Expr) (left : Expr) :
    Parse (Round Expr Expr) := do
  match ← acceptOperator ops with
  | none => return .done left
  | some op => return .again (.binary left op (← operand))

/-- A chain is its first operand, and rounds of the others. -/
theorem chain_eq (ops : List BinaryOp) (operand : Parse Expr) :
    chain ops operand = operand >>= repeated (chainRound ops operand) := rfl

/-- One more entry of a table. -/
def tableRound (expression : Parse Expr) (entries : Array Entry) :
    Parse (Round (Array Entry) (Array Entry)) := do
  if ← looksAt .rightBrace then return .done entries
  let entries := entries.push (← entry expression)
  if (← accept .comma).isSome then return .again entries else return .done entries

/-- A table is rounds of entries up to the closing brace. -/
theorem table_eq (expression : Parse Expr) :
    table expression = repeated (tableRound expression) #[] >>= fun entries =>
      expect .rightBrace (.expected "'\x7d' after table entries") >>= fun _ =>
        pure (.table entries.toList) := by
  unfold table
  simp only [discard_bind]
  rfl

/-- One more argument list, field name or index behind a primary expression. -/
def callRound (expression : Parse Expr) (callee : Expr) : Parse (Round Expr Expr) := do
  if (← accept .leftParen).isSome then
    return .again (← finishCall expression callee)
  if (← accept .dot).isSome then
    let field ← expect .identifier (.expected "field name after '.'")
    return .again (.index callee (.literal (.text field.lexeme)))
  if (← accept .leftBracket).isSome then
    let key ← expression
    let _ ← expect .rightBracket (.expected "']' after index")
    return .again (.index callee key)
  return .done callee

/-- A call is a primary expression, and rounds of what is called or indexed behind it. -/
theorem call_eq (expression : Parse Expr) :
    call expression = primary expression >>= repeated (callRound expression) := by
  unfold call
  simp only [discard_bind]
  rfl

/-- One more declaration, unless the stop or the end of the input is reached. -/
def declarationRound (declaration : Parse Stmt) (stop : Kind) (stmts : Array Stmt) :
    Parse (Round (Array Stmt) (List Stmt)) := do
  if (← looksAt stop) || (← atEnd) then return .done stmts.toList
  return .again (stmts.push (← declaration))

/-- A body is rounds of declarations. -/
theorem declarationsUntil_eq (declaration : Parse Stmt) (stop : Kind) :
    declarationsUntil declaration stop = repeated (declarationRound declaration stop) #[] := rfl

end Loops

/-- Operators of one tier join operands of the next tighter one; the tightest come first. -/
def tierOps : Nat → List BinaryOp
  | 0 => [.times, .divide]
  | 1 => [.plus, .minus]
  | 2 => [.less, .lessEqual, .greater, .greaterEqual]
  | 3 => [.equal, .notEqual]
  | 4 => [.and]
  | 5 => [.or]
  | _ => []

/-- The production whose operators belong to the tiers below `n`. -/
def tier (unary : Parse Expr) : Nat → Parse Expr
  | 0 => unary
  | n + 1 => chain (tierOps n) (tier unary n)

/-- The value assigned to a target, behind the equals sign. -/
def assignedValue (deeper : Parse Expr) (equals : Token) (target : Expr) : Parse Expr := do
  let value ← deeper
  match target with
  | .name token => return .assign token value
  | _ =>
    report equals .invalidTarget
    return target

/-- What follows the target of an assignment: nothing, or an equals sign and a value. -/
def assignmentRest (deeper : Parse Expr) (target : Expr) : Parse Expr := do
  match ← accept .assign with
  | none => return target
  | some equals => assignedValue deeper equals target

/-- An assignment is its target, and what follows it. -/
theorem assignment_eq (unary deeper : Parse Expr) :
    assignment unary deeper = tier unary 6 >>= assignmentRest deeper := rfl

section Lookahead

variable {s : State} {t u : Token} {rest : List Token} {expression : Parse Expr}

/-- A primary expression is told by the token at the cursor. -/
theorem run_primary (expression : Parse Expr) (h : s.after = t :: rest) :
    (primary expression).run s =
      match t.kind with
      | .number | .string => .ok (.literal t.literal) (s.pass [t] [])
      | .nilKeyword => .ok (.literal .nil) (s.pass [t] [])
      | .identifier => .ok (.name t) (s.pass [t] [])
      | .leftBrace => (table expression).run (s.pass [t] [])
      | .leftParen => (expression >>= fun inner =>
          expect .rightParen (.expected "')' after expression") >>= fun _ =>
            pure (.grouping inner)).run (s.pass [t] [])
      | _ => .error (.rejected ⟨.expected "expression", t⟩) s := by
  unfold primary
  rw [bind_of_ok (current_cons h)]
  simp only [discard_bind]
  have hadv : t.kind ≠ .endOfInput → advance.run s = .ok t (s.pass [t] []) := by
    intro hk
    exact advance_cons h (by simp [Token.isEnd, hk])
  cases hk : t.kind with
  | number | string | nilKeyword | identifier | leftBrace | leftParen =>
    exact bind_of_ok (hadv (by simp [hk]))
  | _ => rfl

/-- A table entry behind the opening bracket of its key. -/
def bracketedEntry (expression : Parse Expr) : Parse Entry := do
  let key ← expression
  let _ ← expect .rightBracket (.expected "']' after table key")
  let _ ← expect .assign (.expected "'=' after table key")
  return .keyed key (← expression)

/-- A table entry whose key is a name, behind the equals sign. -/
def namedEntry (name : Token) (expression : Parse Expr) : Parse Entry := do
  return .keyed (.literal (.text name.lexeme)) (← expression)

/-- A table entry without a key. -/
def positionalEntry (expression : Parse Expr) : Parse Entry := do
  return .positional (← expression)

/-- An opening bracket decides for a key that is an expression. -/
theorem entry_bracketed (h : s.after = t :: rest) (ht : t.kind = .leftBracket) :
    (entry expression).run s = (bracketedEntry expression).run (s.pass [t] []) := by
  unfold entry
  rw [bind_of_ok (accept_of_kind h ht (by decide))]
  simp only [discard_bind]
  rfl

/-- A name and an equals sign at the cursor are a key. -/
theorem entry_named (h : s.after = t :: u :: rest) (ht : t.kind = .identifier)
    (hu : u.kind = .assign) :
    (entry expression).run s = (namedEntry t expression).run (s.pass [t, u] []) := by
  have hpeek : (peek 1).run s = .ok u s := by
    unfold peek
    simp [h]
  have hadv : advance.run s = .ok t (s.pass [t] []) :=
    advance_cons h (by simp [Token.isEnd, ht])
  have hadv' : advance.run (s.pass [t] []) = .ok u (s.pass [t, u] []) := by
    have hs : (s.pass [t] []).after = u :: rest := by simp [h]
    rw [advance_cons hs (by simp [Token.isEnd, hu]), State.pass_pass]
    rfl
  unfold entry
  rw [bind_of_ok (accept_of_ne h (by simp [ht]))]
  simp only [discard_bind, Option.isSome_none, Bool.false_eq_true, if_false]
  rw [bind_of_ok (looksAt_cons h _)]
  simp only [ht, beq_self_eq_true, if_true]
  rw [bind_of_ok hpeek]
  simp only [hu, beq_self_eq_true, pure_bind, if_true]
  rw [bind_of_ok hadv, bind_of_ok hadv']
  rfl

/-- Anything else is an entry without a key. -/
theorem entry_positional (h : s.after = t :: rest) (hb : t.kind ≠ .leftBracket)
    (hn : ∀ u us, rest = u :: us → ¬ (t.kind = .identifier ∧ u.kind = .assign)) :
    (entry expression).run s = (positionalEntry expression).run s := by
  unfold entry
  rw [bind_of_ok (accept_of_ne h hb)]
  simp only [Option.isSome_none, Bool.false_eq_true, if_false]
  rw [bind_of_ok (looksAt_cons h _)]
  by_cases ht : t.kind = .identifier
  · have hpeek : ∃ v, (peek 1).run s = .ok v s ∧ v.kind ≠ .assign := by
      cases rest with
      | nil => exact ⟨t, by unfold peek; simp [h], by simp [ht]⟩
      | cons u us => exact ⟨u, by unfold peek; simp [h], fun hu => hn u us rfl ⟨ht, hu⟩⟩
    obtain ⟨v, hv, hk⟩ := hpeek
    simp only [ht, beq_self_eq_true, if_true]
    rw [bind_of_ok hv]
    simp [hk, positionalEntry]
  · simp [ht, positionalEntry]

/-- A return whose keyword was taken. -/
def returnedBy (keyword : Token) (expression : Parse Expr) : Parse Stmt := do
  let value ← do
    if ← looksAt .semicolon then pure none else pure (some (← expression))
  let _ ← expect .semicolon (.expected "';' after return value")
  return .returned keyword value

/-- The token before the cursor is the one that was just taken. -/
theorem previous_pass (s : State) (t : Token) :
    previous.run (s.pass [t] []) = .ok t (s.pass [t] []) := rfl

/-- Looking back at a token that was just taken is remembering it. -/
theorem accept_previous {α : Type} {k : Kind} (hk : k ≠ .endOfInput) (f : Token → Parse α)
    (p : Parse α) :
    (accept k >>= fun o => if o.isSome = true then previous >>= f else p) =
      (accept k >>= fun o => o.elim p f) := by
  funext s
  change EStateM.run _ s = EStateM.run _ s
  rw [EStateM.run_bind, EStateM.run_bind]
  cases hs : s.after with
  | nil =>
    unfold accept looksAt
    simp [current_nil hs]
  | cons t rest =>
    by_cases ht : t.kind = k
    · rw [accept_of_kind hs ht hk]
      simp only [Option.isSome_some, if_true, Option.elim_some]
      rw [bind_of_ok (previous_pass s t)]
    · rw [accept_of_ne hs ht]
      simp

/-- A statement is told by the keyword that is accepted. -/
theorem statementRest_eq (expression : Parse Expr) (statement declaration : Parse Stmt) :
    statementRest expression statement declaration =
      (accept .ifKeyword >>= fun o =>
        if o.isSome = true then conditional expression statement else
      accept .whileKeyword >>= fun o =>
        if o.isSome = true then whileLoop expression statement else
      accept .leftBrace >>= fun o =>
        if o.isSome = true then block declaration >>= fun body => pure (.block body) else
      accept .returnKeyword >>= fun o =>
        o.elim (expressionStatement expression) fun keyword => returnedBy keyword expression) := by
  unfold statementRest
  simp only [← accept_previous (k := .returnKeyword) (by decide)]
  unfold returned
  simp only [discard_bind]
  rfl

end Lookahead

end Moonbridge.Parser
