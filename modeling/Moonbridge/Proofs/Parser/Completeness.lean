import Moonbridge.Proofs.Parser.Reading

/-!
# Phrases are read

In front of a phrase each production answers the tree of the phrase and records its errors, if
the phrase is clear, there is room for it and the next token does not continue it. A repetition
is read up to the loop that goes on with it, so that nothing is asked of the next token before
the loop is known to end there.
-/

namespace Moonbridge.Parser

open Grammar

/-- The tier of an operator, the tightest being 0. -/
def tierOf : BinaryOp → Nat
  | .times | .divide => 0
  | .plus | .minus => 1
  | .less | .lessEqual | .greater | .greaterEqual => 2
  | .equal | .notEqual => 3
  | .and => 4
  | .or => 5

/-- Each tier has the operators of its number. -/
theorem mem_tierOps {op : BinaryOp} {t : Nat} : op ∈ tierOps t ↔ tierOf op = t := by
  rcases t with _ | _ | _ | _ | _ | _ | t <;> cases op <;> simp [tierOps, tierOf]

/-- A token of this kind continues no operand of tier `t`: it extends no call, and it is no
operator of a tighter tier. -/
def EndsTier (t : Nat) (k : Kind) : Prop :=
  k ≠ .leftParen ∧ k ≠ .dot ∧ k ≠ .leftBracket ∧ ∀ op ∈ BinaryOp.ofKind? k, t ≤ tierOf op

/-- Whether a kind ends a tier is decided by looking it up among the operators. -/
instance (t : Nat) (k : Kind) : Decidable (EndsTier t k) :=
  inferInstanceAs (Decidable (_ ∧ _ ∧ _ ∧ ∀ op ∈ BinaryOp.ofKind? k, t ≤ tierOf op))

/-- A token of this kind continues no expression. -/
def EndsExpression (k : Kind) : Prop := EndsTier 6 k ∧ k ≠ .assign

/-- Whether a kind ends an expression is decided like that. -/
instance (k : Kind) : Decidable (EndsExpression k) :=
  inferInstanceAs (Decidable (_ ∧ _))

/-- An operator ends the operands of its tier. -/
theorem endsTier_operator {op : BinaryOp} {t : Nat} (h : op ∈ tierOps t) :
    EndsTier t op.kind := by
  obtain rfl := mem_tierOps.mp h
  cases op <;> decide

/-- What ends the operands of a tier ends those of every tighter tier. -/
theorem EndsTier.mono {t u : Nat} {k : Kind} (h : EndsTier u k) (htu : t ≤ u) : EndsTier t k :=
  ⟨h.1, h.2.1, h.2.2.1, fun op hop => Nat.le_trans htu (h.2.2.2 op hop)⟩

/-- What ends the operands of the next tier is no operator of this one. -/
theorem EndsTier.ne_operator {t : Nat} {k : Kind} (h : EndsTier (t + 1) k) {op : BinaryOp}
    (hop : op ∈ tierOps t) : k ≠ op.kind := by
  rintro rfl
  have := h.2.2.2 op (by simp)
  rw [mem_tierOps.mp hop] at this
  omega

section Primaries

variable {n : Nat} {e : Parse Expr} {a : Expr} {ts : List Token} {es : List ParseError}

/-- A number or a string is read as its literal. -/
theorem primary_literal {t : Token} (ht : t.kind = .number ∨ t.kind = .string) :
    Reads n Anything (primary e) (.literal t.literal) [t] [] := by
  intro s rest _ hs _
  rw [run_primary e hs]
  rcases ht with ht | ht <;> rw [ht] <;> rfl

/-- The keyword of nothing is read as the literal of nothing. -/
theorem primary_nil {t : Token} (ht : t.kind = .nilKeyword) :
    Reads n Anything (primary e) (.literal .nil) [t] [] := by
  intro s rest _ hs _
  rw [run_primary e hs, ht]
  rfl

/-- An identifier is read as a name. -/
theorem primary_name {t : Token} (ht : t.kind = .identifier) :
    Reads n Anything (primary e) (.name t) [t] [] := by
  intro s rest _ hs _
  rw [run_primary e hs, ht]
  rfl

/-- An expression in parentheses behind the opening one. -/
theorem primary_paren {opened : Token} (ho : opened.kind = .leftParen) :
    Continues n Anything (primary e) (e >>= fun inner =>
      expect .rightParen (.expected "')' after expression") >>= fun _ =>
        pure (.grouping inner)) [opened] [] := by
  intro s rest _ hs _
  rw [run_primary e hs, ho]

/-- An expression in parentheses is read as a grouping. -/
theorem primary_grouping {opened closed : Token} (ho : opened.kind = .leftParen)
    (hc : closed.kind = .rightParen) (h : Reads n EndsExpression e a ts es) :
    Reads n Anything (primary e) (.grouping a) (opened :: ts ++ [closed]) es := by
  have hlead : Leads EndsExpression [closed] := .cons hc (by decide) []
  refine (primary_paren ho).andThen ((h.bind_pure _).closing ?_ hlead)
  exact .expecting hc (by decide) (.refl n _ _)

/-- What a round of a table decides behind an entry. -/
def tableRest (entries : Array Entry) : Parse (Round (Array Entry) (Array Entry)) := do
  if (← accept .comma).isSome then return .again entries else return .done entries

/-- An entry is read by a round of its table. -/
theorem tableRound_entry {last : Entry} (entries : Array Entry)
    (h : Reads n EndsExpression (entry e) last ts es) (hlead : Leads (· ≠ .rightBrace) ts) :
    Continues n EndsExpression (tableRound e entries) (tableRest (entries.push last)) ts es :=
  .lookingPast (h.bind_pure _) hlead

/-- Behind a comma another entry may follow. -/
theorem tableRound_more {next : Entry} {comma : Token} (hk : comma.kind = .comma)
    (entries : Array Entry) (h : Reads n EndsExpression (entry e) next ts es)
    (hlead : Leads (· ≠ .rightBrace) ts) :
    Reads n Anything (tableRound e entries) (.again (entries.push next)) (ts ++ [comma]) es := by
  have hcomma : Reads n Anything (tableRest (entries.push next)) (.again (entries.push next))
      [comma] [] := .accepting hk (by decide) (.refl n _ _)
  have hafter : Leads EndsExpression [comma] := .cons hk (by decide) []
  exact (tableRound_entry entries h hlead).closing hcomma hafter

/-- An entry without a comma is the last one. -/
theorem tableRound_last {last : Entry} (entries : Array Entry)
    (h : Reads n EndsExpression (entry e) last ts es) (hlead : Leads (· ≠ .rightBrace) ts) :
    Reads n (· = .rightBrace) (tableRound e entries) (.done (entries.push last)) ts es := by
  have hno : Reads n (· = .rightBrace) (tableRest (entries.push last))
      (.done (entries.push last)) [] [] :=
    ((Continues.notAccept .comma n).bind_pure _).mono (by rintro k rfl; decide)
  have hend : ∀ rest, Leads (· = .rightBrace) rest → Leads EndsExpression ([] ++ rest) :=
    fun rest hrest => hrest.mono (by rintro k rfl; decide)
  simpa using (tableRound_entry entries h hlead).trans hno hend

/-- A table behind its opening brace. -/
theorem primary_opened {opened : Token} (ho : opened.kind = .leftBrace) :
    Continues n Anything (primary e) (table e) [opened] [] := by
  intro s rest _ hs _
  rw [run_primary e hs, ho]

/-- A table ends with the closing brace behind its entries. -/
theorem table_closed {entries : Array Entry} {closed : Token} (hc : closed.kind = .rightBrace)
    (h : Reads n (· = .rightBrace) (repeated (tableRound e) #[]) entries ts es) :
    Reads n Anything (table e) (.table entries.toList) (ts ++ [closed]) es := by
  let rest (entries : Array Entry) : Parse Expr := do
    let _ ← expect .rightBrace (.expected "'\x7d' after table entries")
    return .table entries.toList
  have hclosed : Reads n Anything (rest entries) (.table entries.toList) [closed] [] :=
    .expecting hc (by decide) (.refl n _ _)
  have hend : Leads (· = .rightBrace) [closed] := ⟨closed, [], rfl, hc⟩
  rw [table_eq]
  exact (h.bind_pure rest).closing hclosed hend

/-- A table ends behind the comma of its last entry. -/
theorem table_fields {fields : List Entry} {closed : Token} (hc : closed.kind = .rightBrace)
    (h : Continues n Anything (repeated (tableRound e) #[])
      (repeated (tableRound e) fields.toArray) ts es) :
    Reads n Anything (table e) (.table fields) (ts ++ [closed]) es := by
  have hround : Reads n (· = .rightBrace) (tableRound e fields.toArray) (.done fields.toArray)
      [] [] := (Continues.looksAt .rightBrace n).bind_pure _
  have hentries := h.andThen (.done hround)
  simp only [List.append_nil] at hentries
  exact table_closed hc hentries

/-- A table ends behind an entry without a comma. -/
theorem table_last {fields : List Entry} {last : Entry} {us : List Token} {fs : List ParseError}
    {closed : Token} (hc : closed.kind = .rightBrace)
    (h : Continues n Anything (repeated (tableRound e) #[])
      (repeated (tableRound e) fields.toArray) ts es)
    (hlast : Reads n EndsExpression (entry e) last us fs) (hlead : Leads (· ≠ .rightBrace) us) :
    Reads n Anything (table e) (.table (fields ++ [last])) (ts ++ us ++ [closed]) (es ++ fs) := by
  have hentries := h.andThen (.done (tableRound_last fields.toArray hlast hlead))
  simpa using table_closed hc hentries

end Primaries

section Entries

variable {n : Nat} {e : Parse Expr} {a : Expr} {ts : List Token} {es : List ParseError}

/-- An entry behind a name as its key. -/
theorem entry_key {name equals : Token} (hn : name.kind = .identifier)
    (hq : equals.kind = .assign) :
    Continues n Anything (entry e) (namedEntry name e) [name, equals] [] :=
  fun _ _ _ hs _ => entry_named hs hn hq

/-- An entry behind the opening bracket of its key. -/
theorem entry_bracket {opened : Token} (ho : opened.kind = .leftBracket) :
    Continues n Anything (entry e) (bracketedEntry e) [opened] [] :=
  fun _ _ _ hs _ => entry_bracketed hs ho

/-- A name in front of an equals sign is read as a key. -/
theorem entry_named_reads {name equals : Token} (hn : name.kind = .identifier)
    (hq : equals.kind = .assign) (h : Reads n EndsExpression e a ts es) :
    Reads n EndsExpression (entry e) (.keyed (.literal (.text name.lexeme)) a)
      (name :: equals :: ts) es :=
  (entry_key hn hq).andThen (h.bind_pure _)

/-- An expression in brackets in front of an equals sign is read as a key. -/
theorem entry_keyed_reads {opened closed equals : Token} {key : Expr} {us : List Token}
    {fs : List ParseError} (ho : opened.kind = .leftBracket) (hc : closed.kind = .rightBracket)
    (hq : equals.kind = .assign) (hkey : Reads n EndsExpression e key us fs)
    (h : Reads n EndsExpression e a ts es) :
    Reads n EndsExpression (entry e) (.keyed key a) (opened :: us ++ closed :: equals :: ts)
      (fs ++ es) := by
  have hclosed : Leads EndsExpression (closed :: equals :: ts) := .cons hc (by decide) _
  refine (entry_bracket ho).andThen ((hkey.bind_pure _).trans_of_leads ?_ hclosed)
  refine .expecting hc (by decide) (.expecting hq (by decide) ?_)
  exact h.bind_pure _

/-- An expression that does not begin like a key is an entry without one. -/
theorem run_entry_positional {s : State} {rest : List Token} (hkey : ¬ Phrase.StartsAsKey ts)
    (hlead : Leads (· ≠ .leftBracket) ts) (hs : s.after = ts ++ rest)
    (hrest : Leads EndsExpression rest) : (entry e).run s = (positionalEntry e).run s := by
  obtain ⟨t, more, rfl, ht⟩ := hlead
  refine entry_positional hs ht ?_
  rintro u us hu ⟨hident, hassign⟩
  cases more with
  | nil =>
    -- The next token would be the equals sign, but it ends the expression.
    obtain ⟨v, vs, rfl, hv⟩ := hrest
    obtain ⟨rfl, -⟩ := List.cons.inj hu
    exact hv.2 hassign
  | cons v more =>
    obtain ⟨rfl, -⟩ := List.cons.inj hu
    exact hkey ⟨t, v, more, rfl, hident, hassign⟩

/-- What does not start as a key is read as a value without one. -/
theorem entry_positional_reads (hkey : ¬ Phrase.StartsAsKey ts)
    (hlead : Leads (· ≠ .leftBracket) ts) (h : Reads n EndsExpression e a ts es) :
    Reads n EndsExpression (entry e) (.positional a) ts es := by
  intro s rest hd hs hrest
  rw [run_entry_positional hkey hlead hs hrest]
  exact h.bind_pure _ s rest hd hs hrest

end Entries

section Lists

variable {α : Type} {n : Nat} {P : Kind → Prop} {item : Parse α} {a : α}
  {ts : List Token} {es : List ParseError}

/-- One more item behind a comma; a surplus one is reported at its first token. -/
theorem commaRound_more (what : String) {comma : Token} (hk : comma.kind = .comma) (items : Array α)
    (hlead : Leads Anything ts) (h : Reads n P item a ts es) :
    Reads n P (commaRound item what items) (.again (items.push a)) (comma :: ts)
      (Phrase.surplus what items.size ts ++ es) := by
  refine .accepting hk (by decide) ?_
  simp only []
  unfold Phrase.surplus
  split
  · intro s rest hd hs hrest
    obtain ⟨t, more, rfl, -⟩ := hlead
    rw [bind_of_ok (current_cons hs), bind_of_ok (run_report t _ s)]
    have hitem := h.bind_pure
      (fun a => pure (Round.again (items.push a) : Round (Array α) (List α)))
      (s.pass [] [⟨.tooMany what, t⟩]) rest hd hs hrest
    rw [hitem, State.pass_pass]
    rfl
  · exact h.bind_pure _

/-- Without a further comma a list is complete. -/
theorem commaRound_done (what : String) (items : Array α) :
    Reads n (· ≠ .comma) (commaRound item what items) (.done items.toList) [] [] :=
  (Continues.notAccept .comma n).bind_pure _

end Lists

section Calls

variable {n : Nat} {e : Parse Expr} {a callee : Expr} {ts : List Token} {es : List ParseError}
  {opened closed : Token}

/-- Parentheses with nothing in them are read as a call without arguments. -/
theorem callRound_called (ho : opened.kind = .leftParen) (hc : closed.kind = .rightParen) :
    Reads n Anything (callRound e callee) (.again (.call callee closed [])) [opened, closed]
      [] := by
  refine .accepting ho (by decide) ?_
  have hfinish : Reads n Anything (finishCall e callee) (.call callee closed []) [closed] [] := by
    refine .lookingAt ?_ ⟨closed, [], rfl, hc⟩
    exact .expecting hc (by decide) (.refl n _ _)
  exact hfinish.bind_pure _

/-- Parentheses are read as a call with the arguments in them. -/
theorem callRound_calledWith {args : List Expr} (ho : opened.kind = .leftParen)
    (hc : closed.kind = .rightParen) (hlead : Leads (· ≠ .rightParen) ts)
    (h : Continues n EndsExpression (commaSeparated e "arguments")
      (repeated (commaRound e "arguments") args.toArray) ts es) :
    Reads n Anything (callRound e callee) (.again (.call callee closed args))
      (opened :: ts ++ [closed]) es := by
  refine .accepting ho (by decide) ?_
  have hargs : Reads n (· = .rightParen) (commaSeparated e "arguments") args ts es := by
    have hdone : Reads n (· = .rightParen) (repeated (commaRound e "arguments") args.toArray) args
        [] [] := .done ((commaRound_done _ args.toArray).mono (by rintro k rfl; decide))
    have hend : ∀ rest, Leads (· = .rightParen) rest → Leads EndsExpression ([] ++ rest) :=
      fun rest hrest => hrest.mono (by rintro k rfl; decide)
    simpa using h.trans hdone hend
  have hfinish : Reads n Anything (finishCall e callee) (.call callee closed args)
      (ts ++ [closed]) es := by
    refine .lookingPast ?_ (hlead.append _)
    refine (hargs.bind_pure _).closing ?_ ⟨closed, [], rfl, hc⟩
    exact .expecting hc (by decide) (.refl n _ _)
  exact hfinish.bind_pure _

/-- A point and a name are read as an index by that name. -/
theorem callRound_field {dot name : Token} (hd : dot.kind = .dot) (hn : name.kind = .identifier) :
    Reads n Anything (callRound e callee)
      (.again (.index callee (.literal (.text name.lexeme)))) [dot, name] [] := by
  refine .passingBy ?_ (.cons hd (by decide) _)
  refine .accepting hd (by decide) ?_
  exact .expecting hn (by decide) (.refl n _ _)

/-- Brackets are read as an index by the expression in them. -/
theorem callRound_index (ho : opened.kind = .leftBracket) (hc : closed.kind = .rightBracket)
    (h : Reads n EndsExpression e a ts es) :
    Reads n Anything (callRound e callee) (.again (.index callee a)) (opened :: ts ++ [closed])
      es := by
  refine .passingBy ?_ (.cons ho (by decide) _)
  refine .passingBy ?_ (.cons ho (by decide) _)
  refine .accepting ho (by decide) ?_
  refine (h.bind_pure _).closing ?_ (.cons hc (by decide) [])
  exact .expecting hc (by decide) (.refl n _ _)

/-- A call ends where nothing extends it. -/
theorem callRound_done : Reads n (EndsTier 0) (callRound e callee) (.done callee) [] [] := by
  have hparen := (Continues.notAccept .leftParen n).mono (Q := EndsTier 0) fun _ h => h.1
  have hdot := (Continues.notAccept .dot n).mono (Q := EndsTier 0) fun _ h => h.2.1
  have hbracket := (Continues.notAccept .leftBracket n).mono (Q := EndsTier 0) fun _ h => h.2.2.1
  exact (hparen.bind_pure _).trans ((hdot.bind_pure _).trans (hbracket.bind_pure _)
    fun _ hrest => hrest) fun _ hrest => hrest

end Calls

section Operators

variable {n t : Nat} {P : Kind → Prop} {e d : Parse Expr} {a left : Expr} {ts : List Token}
  {es : List ParseError}

/-- An operator and an operand are joined to what stands in front of them. -/
theorem chainRound_more (left : Expr) {ops : List BinaryOp} {op : Operator} (hop : op.op ∈ ops)
    (h : Reads n P e a ts es) :
    Reads n P (chainRound ops e left) (.again (.binary left op a)) (op.token :: ts) es :=
  ((Continues.operator hop n Anything).bind_pure _).andThen (h.bind_pure _)

/-- A chain ends where no operator of its tier follows. -/
theorem chainRound_done : Reads n (EndsTier (t + 1)) (chainRound (tierOps t) e left)
    (.done left) [] [] :=
  ((Continues.notOperator (tierOps t) n).bind_pure _).mono fun _ h _ hop => h.ne_operator hop

/-- A minus sign is read in front of its operand. -/
theorem negation_minus {minus : Token} (hk : minus.kind = .minus) (h : Reads n P d a ts es) :
    Reads n P (negation d e) (.unary minus a) (minus :: ts) es :=
  .accepting hk (by decide) (h.bind_pure _)

/-- Without an equals sign an expression is no assignment. -/
theorem assignmentRest_none : Reads n (· ≠ .assign) (assignmentRest d a) a [] [] :=
  (Continues.notAccept .assign n).bind_pure _

/-- An equals sign and a value are read as an assignment, and a target that cannot be assigned to is
recorded. -/
theorem assignmentRest_value {equals : Token} {target : Expr} (hq : equals.kind = .assign)
    (h : Reads n P d a ts es) :
    Reads n P (assignmentRest d target) (Phrase.assignedTree target a) (equals :: ts)
      (es ++ Phrase.mistarget target equals) := by
  refine .accepting hq (by decide) ?_
  intro s rest hd hs hrest
  change (assignedValue d equals target).run s = _
  unfold assignedValue
  rw [h.bind_pure _ s rest hd hs hrest]
  unfold Phrase.assignedTree Phrase.mistarget
  cases target with
  | name token => simp
  | _ => rw [bind_of_ok (run_report equals _ _), State.pass_pass, List.append_nil]

end Operators

section Statements

variable {n : Nat} {e : Parse Expr} {st d : Parse Stmt} {cond : Expr} {body other : Stmt}
  {stmts : List Stmt} {cs bs os : List Token} {ces bes oes : List ParseError}

/-- Where neither the stop nor the end is next, a round reads one more declaration. -/
theorem run_declarationRound {stop : Kind} (acc : Array Stmt) {s : State} {rest : List Token}
    (hlead : Leads (fun k => k ≠ stop ∧ k ≠ .endOfInput) bs) (hs : s.after = bs ++ rest) :
    (declarationRound d stop acc).run s =
      (d >>= fun stmt => pure (.again (acc.push stmt))).run s := by
  obtain ⟨t, more, rfl, hstop, hend⟩ := hlead
  unfold declarationRound
  rw [bind_of_ok (looksAt_cons hs stop), bind_of_ok (atEnd_cons hs)]
  simp [Token.isEnd, hstop, hend]

/-- One more declaration, which begins neither with the stop nor at the end. -/
theorem declarationRound_more {stop : Kind} (acc : Array Stmt)
    (hlead : Leads (fun k => k ≠ stop ∧ k ≠ .endOfInput) bs) (h : Reads n Anything d body bs bes) :
    Reads n Anything (declarationRound d stop acc) (.again (acc.push body)) bs bes := by
  intro s rest hd hs hrest
  rw [run_declarationRound acc hlead hs]
  exact h.bind_pure _ s rest hd hs hrest

/-- The declarations end at the stop. -/
theorem declarationRound_done (stop : Kind) (acc : Array Stmt) :
    Reads n (· = stop) (declarationRound d stop acc) (.done acc.toList) [] [] := by
  rintro s rest hd hs ⟨t, more, rfl, ht⟩
  unfold declarationRound
  rw [bind_of_ok (looksAt_cons hs stop), bind_of_ok (atEnd_cons hs)]
  simp [ht]

/-- Declarations up to the stop. -/
theorem declarationsUntil_reads {stop : Kind}
    (h : Continues n Anything (declarationsUntil d stop)
      (repeated (declarationRound d stop) stmts.toArray) bs bes) :
    Reads n (· = stop) (declarationsUntil d stop) stmts bs bes := by
  have hdone : Reads n (· = stop) (repeated (declarationRound d stop) stmts.toArray) stmts [] [] :=
    .done (declarationRound_done stop stmts.toArray)
  simpa using h.andThen hdone

/-- A conditional behind its condition. -/
def branches (st : Parse Stmt) (cond : Expr) : Parse Stmt := do
  let thenBranch ← st
  let elseBranch ← do
    if (← accept .elseKeyword).isSome then pure (some (← st)) else pure none
  let _ ← expect .endKeyword (.expected "'end' after if statement")
  return .conditional cond thenBranch elseBranch

/-- A conditional is its condition and, behind the keyword, its branches. -/
theorem conditional_eq : conditional e st = e >>= fun cond =>
    expect .thenKeyword (.expected "'then' after condition") >>= fun _ => branches st cond := by
  unfold conditional branches
  simp only [discard_bind]

/-- A conditional without a second branch is read up to its last keyword. -/
theorem branches_none {ended : Token} (he : ended.kind = .endKeyword)
    (hb : Reads n Anything st body bs bes) :
    Reads n Anything (branches st cond) (.conditional cond body none) (bs ++ [ended]) bes := by
  unfold branches
  simp only [pure_bind]
  refine (hb.bind_pure _).closing ?_ ⟨ended, [], rfl, trivial⟩
  refine .passingBy ?_ (.cons he (by decide) [])
  exact .expecting he (by decide) (.refl n _ _)

/-- A conditional with a second branch is read up to its last keyword. -/
theorem branches_some {elseWord ended : Token} (hl : elseWord.kind = .elseKeyword)
    (he : ended.kind = .endKeyword) (hb : Reads n Anything st body bs bes)
    (ho : Reads n Anything st other os oes) :
    Reads n Anything (branches st cond) (.conditional cond body (some other))
      (bs ++ elseWord :: os ++ [ended]) (bes ++ oes) := by
  unfold branches
  simp only [pure_bind, List.append_assoc, List.cons_append]
  refine (hb.bind_pure _).trans_of_leads ?_ ⟨elseWord, _, rfl, trivial⟩
  refine .accepting hl (by decide) ?_
  refine (ho.bind_pure _).closing ?_ ⟨ended, [], rfl, trivial⟩
  exact .expecting he (by decide) (.refl n _ _)

/-- A condition, and what stands behind its keyword. -/
theorem conditional_reads {thenWord : Token} {stmt : Stmt} (ht : thenWord.kind = .thenKeyword)
    (hc : Reads n EndsExpression e cond cs ces)
    (hb : Reads n Anything (branches st cond) stmt bs bes) :
    Reads n Anything (conditional e st) stmt (cs ++ thenWord :: bs) (ces ++ bes) := by
  rw [conditional_eq]
  refine (hc.bind_pure _).trans_of_leads ?_ (.cons ht (by decide) _)
  exact .expecting ht (by decide) hb

/-- A loop is read behind its keyword. -/
theorem whileLoop_reads {doWord ended : Token} (ht : doWord.kind = .doKeyword)
    (he : ended.kind = .endKeyword) (hc : Reads n EndsExpression e cond cs ces)
    (hb : Reads n Anything st body bs bes) :
    Reads n Anything (whileLoop e st) (.loop cond body) (cs ++ doWord :: bs ++ [ended])
      (ces ++ bes) := by
  unfold whileLoop
  simp only [discard_bind, List.append_assoc, List.cons_append]
  refine (hc.bind_pure _).trans_of_leads ?_ (.cons ht (by decide) _)
  refine .expecting ht (by decide) ?_
  refine (hb.bind_pure _).closing ?_ ⟨ended, [], rfl, trivial⟩
  exact .expecting he (by decide) (.refl n _ _)

/-- The declarations of a block are read up to its closing brace. -/
theorem block_reads {closed : Token} (hc : closed.kind = .rightBrace)
    (h : Reads n (· = .rightBrace) (declarationsUntil d .rightBrace) stmts bs bes) :
    Reads n Anything (block d) stmts (bs ++ [closed]) bes := by
  unfold block
  simp only [discard_bind]
  refine (h.bind_pure _).closing ?_ ⟨closed, [], rfl, hc⟩
  exact .expecting hc (by decide) (.refl n _ _)

/-- A return without a value is read up to its semicolon. -/
theorem returnedBy_none {keyword semicolon : Token} (hs : semicolon.kind = .semicolon) :
    Reads n Anything (returnedBy keyword e) (.returned keyword none) [semicolon] [] := by
  refine .lookingAt ?_ ⟨semicolon, [], rfl, hs⟩
  exact .expecting hs (by decide) (.refl n _ _)

/-- A return with a value is read up to its semicolon. -/
theorem returnedBy_value {keyword semicolon : Token} (hs : semicolon.kind = .semicolon)
    (hlead : Leads (· ≠ .semicolon) cs) (h : Reads n EndsExpression e cond cs ces) :
    Reads n Anything (returnedBy keyword e) (.returned keyword (some cond)) (cs ++ [semicolon])
      ces := by
  refine .lookingPast ?_ (hlead.append _)
  refine (h.bind_pure _).closing ?_ (.cons hs (by decide) [])
  exact .expecting hs (by decide) (.refl n _ _)

/-- An expression and a semicolon are read as a statement. -/
theorem expressionStatement_reads {semicolon : Token} (hs : semicolon.kind = .semicolon)
    (h : Reads n EndsExpression e cond cs ces) :
    Reads n Anything (expressionStatement e) (.expression cond) (cs ++ [semicolon]) ces := by
  unfold expressionStatement
  simp only [discard_bind]
  refine (h.bind_pure _).closing ?_ (.cons hs (by decide) [])
  exact .expecting hs (by decide) (.refl n _ _)

/-- A local variable without a value is read behind its keyword. -/
theorem localVariable_none {name semicolon : Token} (hn : name.kind = .identifier)
    (hs : semicolon.kind = .semicolon) :
    Reads n Anything (localVariable e) (.declared name none) [name, semicolon] [] := by
  unfold localVariable
  simp only [discard_bind, pure_bind]
  refine .expecting hn (by decide) ?_
  refine .passingBy ?_ (.cons hs (by decide) [])
  exact .expecting hs (by decide) (.refl n _ _)

/-- A local variable with a value is read behind its keyword. -/
theorem localVariable_value {name equals semicolon : Token} (hn : name.kind = .identifier)
    (hq : equals.kind = .assign) (hs : semicolon.kind = .semicolon)
    (h : Reads n EndsExpression e cond cs ces) :
    Reads n Anything (localVariable e) (.declared name (some cond))
      (name :: equals :: cs ++ [semicolon]) ces := by
  unfold localVariable
  simp only [discard_bind, pure_bind]
  refine .expecting hn (by decide) ?_
  refine .accepting hq (by decide) ?_
  refine (h.bind_pure _).closing ?_ (.cons hs (by decide) [])
  exact .expecting hs (by decide) (.refl n _ _)

/-- The body of a function behind its parameters. -/
def functionBody (d : Parse Stmt) (name : Token) (params : List Token) : Parse Stmt := do
  let _ ← expect .rightParen (.expected "')' after parameters")
  let body ← declarationsUntil d .endKeyword
  let _ ← expect .endKeyword (.expected "'end' after function body")
  return .function name params body

/-- A function is read behind its parameters. -/
theorem functionBody_reads {name closed ended : Token} {params : List Token}
    (hc : closed.kind = .rightParen) (he : ended.kind = .endKeyword)
    (h : Reads n (· = .endKeyword) (declarationsUntil d .endKeyword) stmts bs bes) :
    Reads n Anything (functionBody d name params) (.function name params stmts)
      (closed :: bs ++ [ended]) bes := by
  refine .expecting hc (by decide) ?_
  refine (h.bind_pure _).closing ?_ ⟨ended, [], rfl, he⟩
  exact .expecting he (by decide) (.refl n _ _)

/-- A function without parameters is read behind its keyword. -/
theorem functionRest_none {name opened closed ended : Token} (hn : name.kind = .identifier)
    (ho : opened.kind = .leftParen) (hc : closed.kind = .rightParen)
    (he : ended.kind = .endKeyword)
    (h : Reads n (· = .endKeyword) (declarationsUntil d .endKeyword) stmts bs bes) :
    Reads n Anything (functionRest d) (.function name [] stmts)
      (name :: opened :: closed :: bs ++ [ended]) bes := by
  unfold functionRest
  simp only [discard_bind, pure_bind]
  refine .expecting hn (by decide) (.expecting ho (by decide) ?_)
  refine .lookingAt ?_ ⟨closed, _, rfl, hc⟩
  exact functionBody_reads hc he h

/-- The parameters of a function up to the closing parenthesis. -/
theorem parameters_reads {params ps : List Token} {pes : List ParseError}
    (h : Continues n Anything
      (commaSeparated (expect .identifier (.expected "parameter name")) "parameters")
      (repeated (commaRound (expect .identifier (.expected "parameter name")) "parameters")
        params.toArray) ps pes) :
    Reads n (· = .rightParen)
      (commaSeparated (expect .identifier (.expected "parameter name")) "parameters") params ps
      pes := by
  have hdone : Reads n (· = .rightParen)
      (repeated (commaRound (expect .identifier (.expected "parameter name")) "parameters")
        params.toArray) params [] [] :=
    .done ((commaRound_done _ params.toArray).mono (by rintro k rfl; decide))
  simpa using h.andThen hdone

/-- A function with parameters is read behind its keyword. -/
theorem functionRest_params {name opened closed ended : Token} {params ps : List Token}
    {pes : List ParseError} (hn : name.kind = .identifier) (ho : opened.kind = .leftParen)
    (hc : closed.kind = .rightParen) (he : ended.kind = .endKeyword)
    (hlead : Leads (· ≠ .rightParen) ps)
    (hp : Continues n Anything
      (commaSeparated (expect .identifier (.expected "parameter name")) "parameters")
      (repeated (commaRound (expect .identifier (.expected "parameter name")) "parameters")
        params.toArray) ps pes)
    (h : Reads n (· = .endKeyword) (declarationsUntil d .endKeyword) stmts bs bes) :
    Reads n Anything (functionRest d) (.function name params stmts)
      (name :: opened :: ps ++ closed :: bs ++ [ended]) (pes ++ bes) := by
  unfold functionRest
  simp only [discard_bind, pure_bind, List.append_assoc, List.cons_append]
  refine .expecting hn (by decide) (.expecting ho (by decide) ?_)
  refine .lookingPast ?_ (hlead.append _)
  refine ((parameters_reads hp).bind_pure _).trans_of_leads ?_ ⟨closed, _, rfl, hc⟩
  exact functionBody_reads hc he h

end Statements

/-- What it means for a phrase to be read where `n` levels may still be opened. -/
def ReadsPhrase (n : Nat) : {c : Category} → Phrase c → Prop
  | .primary, d =>
    Reads n Anything (primary (rules n).expression) d.tree d.tokens d.errors
  | .call, d =>
    Continues n Anything (call (rules n).expression)
      (repeated (callRound (rules n).expression) d.tree) d.tokens d.errors
  | .tier 0, d => Reads n (EndsTier 0) (rules n).unary d.tree d.tokens d.errors
  | .tier (t + 1), d =>
    Continues n (EndsTier t) (tier (rules n).unary (t + 1))
      (repeated (chainRound (tierOps t) (tier (rules n).unary t)) d.tree) d.tokens d.errors
  | .expression, d => Reads n EndsExpression (rules n).expression d.tree d.tokens d.errors
  | .arguments, d =>
    Continues n EndsExpression (commaSeparated (rules n).expression "arguments")
      (repeated (commaRound (rules n).expression "arguments") d.tree.toArray) d.tokens d.errors
  | .entry, d => Reads n EndsExpression (entry (rules n).expression) d.tree d.tokens d.errors
  | .fields, d =>
    Continues n Anything (repeated (tableRound (rules n).expression) #[])
      (repeated (tableRound (rules n).expression) d.tree.toArray) d.tokens d.errors
  | .parameters, d =>
    Continues n Anything
      (commaSeparated (expect .identifier (.expected "parameter name")) "parameters")
      (repeated (commaRound (expect .identifier (.expected "parameter name")) "parameters")
        d.tree.toArray) d.tokens d.errors
  | .statement, d => Reads n Anything (rules n).statement d.tree d.tokens d.errors
  | .declaration, d => Reads n Anything (rules n).declaration d.tree d.tokens d.errors
  | .declarations, d =>
    ∀ stop ∈ [Kind.endKeyword, Kind.rightBrace],
      Continues n Anything (declarationsUntil (rules n).declaration stop)
        (repeated (declarationRound (rules n).declaration stop) d.tree.toArray) d.tokens d.errors

section Levels

variable {n : Nat} {P : Kind → Prop} {ts : List Token} {es : List ParseError}

/-- A unary expression without a minus sign is a call, whatever the room. -/
theorem unary_call {q : Parse Expr} (h : Continues n P (call (rules n).expression) q ts es)
    (hlead : Leads (· ≠ .minus) ts) : Continues n P (rules n).unary q ts es := by
  cases n with
  | zero => exact .passingBy h hlead
  | succ n => exact .passingBy h hlead

section Opening

variable {k : Nat} {a : Expr} {stmt : Stmt}

/-- The room that an expression leaves is enough for its parts. -/
theorem expression_reads (hn : k + 1 ≤ n) (h : ∀ m, k ≤ m →
      Reads m P (assignment (rules m).unary (rules m).expression) a ts es) :
    Reads n P (rules n).expression a ts es := by
  obtain ⟨m, rfl⟩ := Nat.exists_eq_add_of_le' hn
  exact (h _ (Nat.le_add_left _ _)).nested

/-- A statement takes one level of nesting, and is read if what follows at the next level is. -/
theorem statement_reads (hn : k + 1 ≤ n) (h : ∀ m, k ≤ m → Reads m P
      (statementRest (rules m).expression (rules m).statement (rules m).declaration) stmt ts es) :
    Reads n P (rules n).statement stmt ts es := by
  obtain ⟨m, rfl⟩ := Nat.exists_eq_add_of_le' hn
  exact (h _ (Nat.le_add_left _ _)).nested

/-- A function takes one level of nesting, and is read if what follows at the next level is. -/
theorem function_reads (hn : k + 1 ≤ n)
    (h : ∀ m, k ≤ m → Reads m P (functionRest (rules m).declaration) stmt ts es) :
    Reads n P (rules n).function stmt ts es := by
  obtain ⟨m, rfl⟩ := Nat.exists_eq_add_of_le' hn
  exact (h _ (Nat.le_add_left _ _)).nested

/-- A function is read behind its keyword. -/
theorem declaration_function {keyword : Token} (hk : keyword.kind = .functionKeyword)
    (h : Reads n P (rules n).function stmt ts es) :
    Reads n P (rules n).declaration stmt (keyword :: ts) es :=
  .accepting hk (by decide) h

end Opening

/-- An operand of a tier is read where an operator of the tier may follow. -/
theorem tier_reads {t : Nat} {d : Phrase (.tier t)} (h : ReadsPhrase n d) :
    Reads n (EndsTier t) (tier (rules n).unary t) d.tree d.tokens d.errors := by
  cases t with
  | zero => exact h
  | succ t =>
    have hdone : Reads n (EndsTier (t + 1))
        (repeated (chainRound (tierOps t) (tier (rules n).unary t)) d.tree) d.tree [] [] :=
      .done chainRound_done
    have hend : ∀ rest, Leads (EndsTier (t + 1)) rest → Leads (EndsTier t) ([] ++ rest) :=
      fun rest hrest => hrest.mono fun _ hk => hk.mono (Nat.le_succ t)
    simpa using Continues.trans h hdone hend

/-- A call is read where nothing extends it. -/
theorem call_reads {d : Phrase .call} (h : ReadsPhrase n d) :
    Reads n (EndsTier 0) (call (rules n).expression) d.tree d.tokens d.errors := by
  have hdone : Reads n (EndsTier 0) (repeated (callRound (rules n).expression) d.tree) d.tree
      [] [] := .done callRound_done
  simpa using Continues.andThen h hdone

/-- Each round of a call passes a token. -/
theorem callRound_advances (n : Nat) : Advances (callRound (rules n).expression) :=
  Regular.advances (callRound_regular (rules_regular .alone n).2.1)

/-- Each round of a chain of operators passes a token. -/
theorem chainRound_advances (n t : Nat) :
    Advances (chainRound (tierOps t) (tier (rules n).unary t)) :=
  Regular.advances (chainRound_regular _ (tier_regular (rules_regular .alone n).1 t))

/-- Each round of a table passes a token. -/
theorem tableRound_advances (n : Nat) : Advances (tableRound (rules n).expression) :=
  Regular.advances (tableRound_regular (rules_regular .alone n).2.1)

/-- Each round of the arguments passes a token. -/
theorem argumentRound_advances (n : Nat) :
    Advances (commaRound (rules n).expression "arguments") :=
  Regular.advances (commaRound_regular (rules_regular .alone n).2.1 _)

/-- Each round of the parameters passes a token. -/
theorem parameterRound_advances (problem : Problem) :
    Advances (commaRound (expect .identifier problem) "parameters") :=
  Regular.advances (x := .alone) (commaRound_regular (expect_regular (by decide)) _)

/-- Each round of a body passes a token. -/
theorem declarationRound_advances (n : Nat) (stop : Kind) :
    Advances (declarationRound (rules n).declaration stop) :=
  Regular.advances (declarationRound_regular (declaration_regular .alone n) stop)

/-- A loop over calls takes one more suffix. -/
theorem call_more {n : Nat} {d : Phrase .call} {next : Expr} (h : ReadsPhrase n d)
    (hround : Reads n Anything (callRound (rules n).expression d.tree) (.again next) ts es) :
    Continues n Anything (call (rules n).expression)
      (repeated (callRound (rules n).expression) next) (d.tokens ++ ts) (d.errors ++ es) :=
  Continues.andThen h (.again (callRound_advances n) hround)

/-- An expression without an equals sign. -/
theorem assignment_value {d : Phrase (.tier 6)} (h : ReadsPhrase n d) :
    Reads n EndsExpression (assignment (rules n).unary (rules n).expression) d.tree d.tokens
      d.errors := by
  have hnone : Reads n EndsExpression (assignmentRest (rules n).expression d.tree) d.tree [] [] :=
    assignmentRest_none.mono fun _ hk => hk.2
  have hend : ∀ rest, Leads EndsExpression rest → Leads (EndsTier 6) ([] ++ rest) :=
    fun rest hrest => hrest.mono fun _ hk => hk.1
  rw [assignment_eq]
  simpa using ((tier_reads h).bind_pure _).trans hnone hend

/-- An assignment is read if its target and its value are. -/
theorem assignment_assigned {t : Phrase (.tier 6)} {e : Phrase .expression} {equals : Token}
    (hq : equals.kind = .assign) (ht : ReadsPhrase n t) (he : ReadsPhrase n e) :
    Reads n EndsExpression (assignment (rules n).unary (rules n).expression)
      (Phrase.assignedTree t.tree e.tree) (t.tokens ++ equals :: e.tokens)
      (t.errors ++ e.errors ++ Phrase.mistarget t.tree equals) := by
  have hlead : Leads (EndsTier 6) (equals :: e.tokens) := .cons hq (by decide) _
  rw [assignment_eq, List.append_assoc]
  exact ((tier_reads ht).bind_pure _).trans_of_leads (assignmentRest_value hq he) hlead

end Levels

section Dispatch

variable {n : Nat} {e : Parse Expr} {st d : Parse Stmt} {t : Token}

/-- The keyword of a conditional decides for one. -/
theorem statementRest_if (ht : t.kind = .ifKeyword) :
    Continues n Anything (statementRest e st d) (conditional e st) [t] [] := by
  rw [statementRest_eq]
  exact .accepting ht (by decide) (.refl n _ _)

/-- The keyword of a loop decides for one. -/
theorem statementRest_while (ht : t.kind = .whileKeyword) :
    Continues n Anything (statementRest e st d) (whileLoop e st) [t] [] := by
  rw [statementRest_eq]
  refine .passingBy ?_ (.cons ht (by decide) _)
  exact .accepting ht (by decide) (.refl n _ _)

/-- An opening brace decides for a block. -/
theorem statementRest_block (ht : t.kind = .leftBrace) :
    Continues n Anything (statementRest e st d) (block d >>= fun body => pure (.block body))
      [t] [] := by
  rw [statementRest_eq]
  refine .passingBy ?_ (.cons ht (by decide) _)
  refine .passingBy ?_ (.cons ht (by decide) _)
  exact .accepting ht (by decide) (.refl n _ _)

/-- The keyword of a return decides for one. -/
theorem statementRest_return (ht : t.kind = .returnKeyword) :
    Continues n Anything (statementRest e st d) (returnedBy t e) [t] [] := by
  rw [statementRest_eq]
  refine .passingBy ?_ (.cons ht (by decide) _)
  refine .passingBy ?_ (.cons ht (by decide) _)
  refine .passingBy ?_ (.cons ht (by decide) _)
  exact .accepting ht (by decide) (.refl n _ _)

/-- A token of this kind begins an expression but no block. -/
def BeginsStated (k : Kind) : Prop := k ∈ Category.expression.first ∧ k ≠ .leftBrace

/-- What begins like an expression but not like a block is an expression. -/
theorem statementRest_expression :
    Continues n BeginsStated (statementRest e st d) (expressionStatement e) [] [] := by
  have hother : ∀ k ∈ [Kind.ifKeyword, .whileKeyword, .leftBrace, .returnKeyword],
      ∀ k' ∈ Category.expression.first, k' ≠ .leftBrace → k' ≠ k := by decide
  have hnot : ∀ k ∈ [Kind.ifKeyword, .whileKeyword, .leftBrace, .returnKeyword],
      Reads n BeginsStated (accept k) none [] [] :=
    fun k hk => (Continues.notAccept k n).mono fun k' hk' => hother k hk k' hk'.1 hk'.2
  rw [statementRest_eq]
  have hrest : ∀ rest, Leads BeginsStated rest → Leads BeginsStated ([] ++ rest) :=
    fun _ hrest => hrest
  refine ((hnot _ (by decide)).bind_pure _).trans ?_ hrest
  refine ((hnot _ (by decide)).bind_pure _).trans ?_ hrest
  refine ((hnot _ (by decide)).bind_pure _).trans ?_ hrest
  exact (hnot _ (by decide)).bind_pure _

/-- An expression that could not be taken for a block. -/
theorem beginsStated {d : Phrase .expression} (h : ¬ Phrase.StartsAsBlock d.tokens) :
    Leads BeginsStated d.tokens := by
  obtain ⟨t, rest, htokens, ht⟩ := d.begins id
  exact ⟨t, rest, htokens, ht, fun hk => h ⟨t, rest, htokens, hk⟩⟩

end Dispatch

section Phrases

/-- Every phrase is read, if it is clear and there is room for it. The induction is on the
derivation; the room shrinks where a level is opened. -/
theorem readsPhrase {c : Category} (d : Phrase c) (n : Nat) (hn : d.nesting ≤ n) (hc : d.Clear) :
    ReadsPhrase n d := by
  induction d generalizing n with
  | literal t h => exact primary_literal h
  | nil t => exact primary_nil t.2
  | name t => exact primary_name t.2
  | table o fs c ih => exact (primary_opened o.2).andThen (table_fields c.2 (ih n hn hc))
  | tableLast o fs e c ihf ihe =>
    obtain ⟨hnf, hne⟩ := Nat.max_le.mp hn
    have hlead : Leads (· ≠ .rightBrace) e.tokens := leads_of_begins (e.begins id) (by decide)
    exact (primary_opened o.2).andThen (table_last c.2 (ihf n hnf hc.1) (ihe n hne hc.2) hlead)
  | grouping o e c ih => exact primary_grouping o.2 c.2 (ih n hn hc)
  | noFields => exact .refl n _ _
  | moreFields fs e c ihf ihe =>
    obtain ⟨hnf, hne⟩ := Nat.max_le.mp hn
    have hlead : Leads (· ≠ .rightBrace) e.tokens := leads_of_begins (e.begins id) (by decide)
    have hround := tableRound_more c.2 fs.tree.toArray (ihe n hne hc.2) hlead
    have := Continues.andThen (ihf n hnf hc.1) (.again (tableRound_advances n) hround)
    simpa [ReadsPhrase, Phrase.tokens, Phrase.errors, Phrase.tree] using this
  | positional e ih =>
    exact entry_positional_reads hc.1 (leads_of_begins (e.begins id) (by decide)) (ih n hn hc.2)
  | named t q e ih => exact entry_named_reads t.2 q.2 (ih n hn hc)
  | keyed o k c q e ihk ihe =>
    obtain ⟨hnk, hne⟩ := Nat.max_le.mp hn
    exact entry_keyed_reads o.2 c.2 q.2 (ihk n hnk hc.1) (ihe n hne hc.2)
  | single p ih =>
    have := Continues.bind_pure (ih n hn hc) (repeated (callRound (rules n).expression))
    rw [← call_eq] at this
    exact this
  | called f o c ih =>
    simpa [ReadsPhrase, Phrase.tokens, Phrase.errors, Phrase.tree] using
      call_more (ih n hn hc) (callRound_called o.2 c.2)
  | calledWith f o as c ihf iha =>
    obtain ⟨hnf, hna⟩ := Nat.max_le.mp hn
    have hlead : Leads (· ≠ .rightParen) as.tokens := leads_of_begins (as.begins id) (by decide)
    simpa [ReadsPhrase, Phrase.tokens, Phrase.errors, Phrase.tree] using
      call_more (ihf n hnf hc.1) (callRound_calledWith o.2 c.2 hlead (iha n hna hc.2))
  | field e d t ih =>
    simpa [ReadsPhrase, Phrase.tokens, Phrase.errors, Phrase.tree] using
      call_more (ih n hn hc) (callRound_field d.2 t.2)
  | index e o k c ihe ihk =>
    obtain ⟨hne, hnk⟩ := Nat.max_le.mp hn
    simpa [ReadsPhrase, Phrase.tokens, Phrase.errors, Phrase.tree] using
      call_more (ihe n hne hc.1) (callRound_index o.2 c.2 (ihk n hnk hc.2))
  | argument e ih =>
    exact Continues.bind_pure (ih n hn hc) _
  | moreArguments as c e iha ihe =>
    obtain ⟨hna, hne⟩ := Nat.max_le.mp hn
    have hlead : Leads Anything e.tokens := leads_of_begins (e.begins id) fun _ _ => trivial
    have hround := commaRound_more "arguments" c.2 as.tree.toArray hlead (ihe n hne hc.2)
    have := Continues.trans_of_leads (iha n hna hc.1) (.again (argumentRound_advances n) hround)
      (.cons c.2 (by decide) _)
    simpa [ReadsPhrase, Phrase.tokens, Phrase.errors, Phrase.tree] using this
  | unsigned e ih =>
    exact unary_call (call_reads (ih n hn hc)) (leads_of_begins (e.begins id) (by decide))
  | negated m e ih =>
    cases n with
    | zero => cases hn
    | succ n => exact negation_minus m.2 (Continues.nested (ih n (Nat.le_of_succ_le_succ hn) hc))
  | operand e ih => exact Continues.bind_pure (tier_reads (ih n hn hc)) _
  | joined l op h r ihl ihr =>
    obtain ⟨hnl, hnr⟩ := Nat.max_le.mp hn
    have hround := chainRound_more l.tree h (tier_reads (ihr n hnr hc.2))
    exact Continues.trans_of_leads (ihl n hnl hc.1) (.again (chainRound_advances n _) hround)
      (.cons op.kind_eq (endsTier_operator h) _)
  | value e ih => exact expression_reads hn fun m hm => assignment_value (ih m hm hc)
  | assigned t q e iht ihe =>
    refine expression_reads hn fun m hm => ?_
    obtain ⟨hmt, hme⟩ := Nat.max_le.mp hm
    exact assignment_assigned q.2 (iht m hmt hc.1) (ihe m hme hc.2)
  | parameter t => exact Continues.bind_pure (.expect t.2 (by decide) n Anything) _
  | moreParameters ps c t ih =>
    have hname : Reads n Anything (expect .identifier (.expected "parameter name")) t.1 [t.1] [] :=
      .expect t.2 (by decide) n _
    have hround := commaRound_more "parameters" c.2 ps.tree.toArray ⟨t.1, [], rfl, trivial⟩ hname
    have := Continues.andThen (ih n (by simp [ps.nesting_parameters]) ps.clear_parameters)
      (.again (parameterRound_advances _) hround)
    simpa [ReadsPhrase, Phrase.tokens, Phrase.errors, Phrase.tree] using this
  | conditional i e t s d ihe ihs =>
    refine statement_reads hn fun m hm => (statementRest_if i.2).andThen ?_
    obtain ⟨hme, hms⟩ := Nat.max_le.mp hm
    have hread := conditional_reads t.2 (ihe m hme hc.1) (branches_none d.2 (ihs m hms hc.2))
    simpa [Phrase.tree] using hread
  | alternative i e t s l r d ihe ihs ihr =>
    refine statement_reads hn fun m hm => (statementRest_if i.2).andThen ?_
    obtain ⟨hmes, hmr⟩ := Nat.max_le.mp hm
    obtain ⟨hme, hms⟩ := Nat.max_le.mp hmes
    have hread := conditional_reads t.2 (ihe m hme hc.1)
      (branches_some l.2 d.2 (ihs m hms hc.2.1) (ihr m hmr hc.2.2))
    simpa [Phrase.tree] using hread
  | loop w e t s d ihe ihs =>
    refine statement_reads hn fun m hm => (statementRest_while w.2).andThen ?_
    obtain ⟨hme, hms⟩ := Nat.max_le.mp hm
    exact whileLoop_reads t.2 d.2 (ihe m hme hc.1) (ihs m hms hc.2)
  | block o ds c ih =>
    refine statement_reads hn fun m hm => (statementRest_block o.2).andThen ?_
    have hbody := declarationsUntil_reads (ih m hm hc .rightBrace (by decide))
    exact (block_reads c.2 hbody).bind_pure _
  | returned k s =>
    exact statement_reads hn fun m _ => (statementRest_return k.2).andThen (returnedBy_none s.2)
  | returnedValue k e s ih =>
    refine statement_reads hn fun m hm => (statementRest_return k.2).andThen ?_
    exact returnedBy_value s.2 (leads_of_begins (e.begins id) (by decide)) (ih m hm hc)
  | expressed e s ih =>
    refine statement_reads hn fun m hm => ?_
    exact statementRest_expression.trans_of_leads (expressionStatement_reads s.2 (ih m hm hc.2))
      ((beginsStated hc.1).append _)
  | procedure k m o c ds d ih =>
    refine declaration_function k.2 (function_reads hn fun room hroom => ?_)
    have hbody := declarationsUntil_reads (ih room hroom hc .endKeyword (by decide))
    exact functionRest_none m.2 o.2 c.2 d.2 hbody
  | function k m o ps c ds d ihp ihd =>
    refine declaration_function k.2 (function_reads hn fun room hroom => ?_)
    have hparams := ihp room (by simp [ps.nesting_parameters]) ps.clear_parameters
    have hbody := declarationsUntil_reads (ihd room hroom hc .endKeyword (by decide))
    have hlead : Leads (· ≠ .rightParen) ps.tokens := leads_of_begins (ps.begins id) (by decide)
    exact functionRest_params m.2 o.2 c.2 d.2 hlead hparams hbody
  | declared k m s =>
    refine Continues.passingBy ?_ (.cons k.2 (by decide) _)
    exact .accepting k.2 (by decide) (localVariable_none m.2 s.2)
  | initialized k m q e s ih =>
    refine Continues.passingBy ?_ (.cons k.2 (by decide) _)
    exact .accepting k.2 (by decide) (localVariable_value m.2 q.2 s.2 (ih n hn hc))
  | stated s ih =>
    refine Continues.passingBy ?_ (leads_of_begins (s.begins id) (by decide))
    refine Continues.passingBy ?_ (leads_of_begins (s.begins id) (by decide))
    exact ih n hn hc
  | noDeclarations => exact fun stop _ => .refl n _ _
  | moreDeclarations ds d ihds ihd =>
    intro stop hstop
    obtain ⟨hnds, hnd⟩ := Nat.max_le.mp hn
    have hlead : Leads (fun k => k ≠ stop ∧ k ≠ .endOfInput) d.tokens := by
      refine leads_of_begins (d.begins id) ?_
      revert stop
      decide
    have hround := declarationRound_more ds.tree.toArray hlead (ihd n hnd hc.2)
    have := Continues.andThen (ihds n hnds hc.1 stop hstop)
      (.again (declarationRound_advances n stop) hround)
    simpa [Phrase.tokens, Phrase.errors, Phrase.tree] using this

end Phrases

end Moonbridge.Parser
