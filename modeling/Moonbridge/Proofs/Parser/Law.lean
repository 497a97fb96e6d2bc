import Moonbridge.Proofs.Parser.Frame
import Moonbridge.Proofs.Parser.Productions

/-!
# Every production follows the law

Each production follows the law of the frame and of its surroundings if the productions it
refers to do. The recursive productions follow it at every level, by induction on the room
that is left, and so do the declarations of the top level.
-/

namespace Moonbridge.Parser

variable {x : Context}

/-- The law of a production for expressions. -/
abbrev RegularExpr (x : Context) (p : Parse Expr) : Prop :=
  Regular x (Expr.relabel x.toRelabeling) (fun _ => True) p p

/-- The law of a production for statements. -/
abbrev RegularStmt (x : Context) (p : Parse Stmt) : Prop :=
  Regular x (Stmt.relabel x.toRelabeling) (fun _ => True) p p

section Lists

variable {α : Type} {m : α → α} {item : Parse α}

/-- A round of a list follows the law, and whether the list is too long depends on no label. -/
theorem commaRound_regular (h : Regular x m (fun _ => True) item item) (what : String)
    (items : Array α) :
    Regular x (Round.map (Array.map m) (List.map m)) Round.Again (commaRound item what items)
      (commaRound item what (items.map m)) := by
  refine (accept_regular (by decide)).seq fun o => ?_
  have hnext : Regular x (Round.map (Array.map m) (List.map m)) Round.Again
      (item >>= fun a => pure (.again (items.push a)))
      (item >>= fun a => pure (.again ((items.map m).push a))) :=
    h.seqTaken fun a => .pure x (by simp [Round.map]) id
  cases o with
  | none => exact .pure x (by simp [Round.map]) id
  | some t =>
    simp only [Option.map_some, Array.size_map]
    split
    · have hr := (reportCurrent_regular (x := x) (.tooMany what)).seq
        (f := fun _ => item >>= fun a => pure (Round.again (items.push a)))
        (g := fun _ => item >>= fun a => pure (Round.again ((items.map m).push a)))
        fun _ => hnext
      simpa only [bind_assoc] using hr
    · exact hnext

/-- Items separated by commas follow the law of the items. -/
theorem commaSeparated_regular (h : Regular x m (fun _ => True) item item) (what : String) :
    Regular x (List.map m) (fun _ => True) (commaSeparated item what)
      (commaSeparated item what) := by
  rw [commaSeparated_eq]
  refine h.seqTaken fun a => ?_
  simpa using repeated_regular (commaRound_regular h what) #[a]

end Lists

section Expressions

variable {e : Parse Expr}

/-- A round of a chain follows the law; what is read so far may carry other labels. -/
theorem chainRound_regular (ops : List BinaryOp) (h : RegularExpr x e) (left : Expr) :
    Regular x (Round.map (Expr.relabel x.toRelabeling) (Expr.relabel x.toRelabeling))
      Round.Again (chainRound ops e left) (chainRound ops e (left.relabel x.toRelabeling)) := by
  refine (acceptOperator_regular ops).seq fun o => ?_
  cases o with
  | none => exact .pure x rfl id
  | some op => exact h.seqTaken fun right => .pure x (by simp [Round.map, Expr.relabel]) id

/-- A chain of operators follows the law if its operands do. -/
theorem chain_regular (ops : List BinaryOp) (h : RegularExpr x e) :
    RegularExpr x (chain ops e) := by
  rw [chain_eq]
  exact h.seqTaken (repeated_regular (chainRound_regular ops h))

/-- A tier follows the law if the expressions that its tightest operators join do. -/
theorem tier_regular (h : RegularExpr x e) (n : Nat) : RegularExpr x (tier e n) := by
  induction n with
  | zero => exact h
  | succ n ih => exact chain_regular (tierOps n) ih

/-- A table entry follows the law, whether it has a name, an expression or nothing as key. -/
theorem entry_regular (h : RegularExpr x e) :
    Regular x (Entry.relabel x.toRelabeling) (fun _ => True) (entry e) (entry e) := by
  refine .ofCurrent (fun s hs => ?_) fun s t rest hs => ?_
  · unfold entry accept looksAt
    simp [current_nil hs]
  · have hx := Context.state_after (x := x) hs
    by_cases hb : t.kind = .leftBracket
    · have hrest : Regular x (Entry.relabel x.toRelabeling) (fun _ => True) (bracketedEntry e)
          (bracketedEntry e) := by
        refine h.seqTaken fun key => ?_
        refine (expect_regular (by decide)).seq fun _ => ?_
        refine (expect_regular (by decide)).seq fun _ => ?_
        exact h.seq fun value => .pure x (by simp [Entry.relabel]) id
      exact hrest.of_pass [t] hs (by simp [Token.isEnd, hb]) (entry_bracketed hs hb)
        fun _ => entry_bracketed hx (by simpa using hb)
    · by_cases hn : ∃ u us, rest = u :: us ∧ t.kind = .identifier ∧ u.kind = .assign
      · obtain ⟨u, us, rfl, ht, hu⟩ := hn
        have hrest : Regular x (Entry.relabel x.toRelabeling) (fun _ => True) (namedEntry t e)
            (namedEntry (x.token t) e) :=
          h.seqTaken fun value => .pure x (by simp [Entry.relabel, Expr.relabel]) id
        exact hrest.of_pass [t, u] hs (by simp [Token.isEnd, ht, hu])
          (entry_named hs ht hu)
          fun _ => entry_named hx (by simpa using ht) (by simpa using hu)
      · have hrest : Regular x (Entry.relabel x.toRelabeling) (fun _ => True)
            (positionalEntry e) (positionalEntry e) :=
          h.seqTaken fun value => .pure x (by simp [Entry.relabel]) id
        refine hrest.of_pass [] hs (by simp) ?_ fun hend => ?_
        · rw [State.pass_nil]
          exact entry_positional hs hb fun u us hu hk => hn ⟨u, us, hu, hk⟩
        · rw [List.map_nil, State.pass_nil]
          refine entry_positional hx (by simpa using hb) ?_
          rintro u us hu ⟨ht, hk⟩
          cases rest with
          | nil =>
            -- A lone token at the cursor is the mark of the end, hence no name.
            obtain ⟨t', ht', hend⟩ := hend
            obtain rfl : t' = t := by simpa [hs] using ht'
            rw [x.kind_token] at ht
            simp [Token.isEnd, ht] at hend
          | cons v vs =>
            simp only [List.map_cons, List.cons_append, List.cons.injEq] at hu
            obtain ⟨rfl, -⟩ := hu
            exact hn ⟨v, vs, rfl, by simpa using ht, by simpa using hk⟩

/-- A round of a table follows the law, and passes a token whenever it asks for another. -/
theorem tableRound_regular (h : RegularExpr x e) (entries : Array Entry) :
    Regular x (Round.map (Array.map (Entry.relabel x.toRelabeling))
        (Array.map (Entry.relabel x.toRelabeling)))
      Round.Again (tableRound e entries)
      (tableRound e (entries.map (Entry.relabel x.toRelabeling))) := by
  refine (looksAt_regular _).seq fun closed => ?_
  simp only [id_eq]
  split
  · exact .pure x (by simp [Round.map]) id
  · refine (entry_regular h).seqTaken fun next => ?_
    refine (accept_regular (by decide)).seq fun comma => ?_
    rw [Option.isSome_map]
    split <;> exact .pure x (by simp [Round.map]) id

/-- A table follows the law up to its closing brace. -/
theorem table_regular (h : RegularExpr x e) : RegularExpr x (table e) := by
  have hloop := repeated_regular (tableRound_regular h) #[]
  rw [List.map_toArray, List.map_nil] at hloop
  rw [table_eq]
  refine hloop.seq fun entries => ?_
  refine (expect_regular (by decide)).seqTaken fun _ => ?_
  exact .pure x (by simp [Expr.relabel]) id

/-- A literal, a name, a table or a grouping follows the law, and no label decides which of them it
is. -/
theorem primary_regular (h : RegularExpr x e) : RegularExpr x (primary e) := by
  refine .ofCurrent (fun s hs => ?_) fun s t rest hs => ?_
  · unfold primary
    simp [current_nil hs]
  · have hx := Context.state_after (x := x) hs
    have hp := run_primary e hs
    have hq := run_primary e hx
    simp only [x.kind_token, x.literal_token] at hq
    have hend : t.kind ≠ .endOfInput → t.isEnd = false := by simp [Token.isEnd]
    split at hp <;> rename_i hk <;> simp only [hk] at hq
    · exact .take hs (hend (by simp [hk])) hp hq
    · exact .take hs (hend (by simp [hk])) hp hq
    · exact .take hs (hend (by simp [hk])) hp hq
    · exact .take hs (hend (by simp [hk])) hp hq
    · exact (table_regular h).of_pass [t] hs (by simp [Token.isEnd, hk]) hp fun _ => hq
    · refine Regular.of_pass ?_ [t] hs (by simp [Token.isEnd, hk]) hp fun _ => hq
      refine h.seqTaken fun inner => (expect_regular (by decide)).seq fun _ => ?_
      exact .pure x (by simp [Expr.relabel]) id
    · constructor
      · rw [hp]
        exact ⟨Int.le_refl _, by simp [hs], [], [], Moved.refl s⟩
      · intro a s' ha
        rw [hp] at ha
        cases ha
      · intro _
        rw [hp, hq]
        rfl

/-- The arguments of a call follow the law; the callee may carry other labels. -/
theorem finishCall_regular (h : RegularExpr x e) (callee : Expr) :
    Regular x (Expr.relabel x.toRelabeling) (fun _ => True) (finishCall e callee)
      (finishCall e (callee.relabel x.toRelabeling)) := by
  unfold finishCall
  refine (looksAt_regular _).seq fun none => ?_
  simp only [id_eq, pure_bind]
  split
  · exact (expect_regular (by decide)).seqTaken fun _ => .pure x (by simp [Expr.relabel]) id
  · refine (commaSeparated_regular h _).seqTaken fun args => ?_
    refine (expect_regular (by decide)).seq fun _ => .pure x (by simp [Expr.relabel]) id

/-- A round of a call follows the law; what is called or indexed may carry other labels. -/
theorem callRound_regular (h : RegularExpr x e) (callee : Expr) :
    Regular x (Round.map (Expr.relabel x.toRelabeling) (Expr.relabel x.toRelabeling))
      Round.Again (callRound e callee) (callRound e (callee.relabel x.toRelabeling)) := by
  refine (accept_regular (by decide)).seq fun o => ?_
  rw [Option.isSome_map]
  split
  · exact (finishCall_regular h callee).seqTaken fun _ => .pure x rfl id
  refine (accept_regular (by decide)).seq fun o => ?_
  rw [Option.isSome_map]
  split
  · refine (expect_regular (by decide)).seqTaken fun _ => ?_
    exact .pure x (by simp [Round.map, Expr.relabel]) id
  refine (accept_regular (by decide)).seq fun o => ?_
  rw [Option.isSome_map]
  split
  · refine h.seqTaken fun key => (expect_regular (by decide)).seq fun _ => ?_
    exact .pure x (by simp [Round.map, Expr.relabel]) id
  · exact .pure x rfl id

/-- A primary expression and all that is called or indexed behind it follow the law. -/
theorem call_regular (h : RegularExpr x e) : RegularExpr x (call e) := by
  rw [call_eq]
  exact (primary_regular h).seqTaken (repeated_regular (callRound_regular h))

/-- A negation follows the law if what it negates does. -/
theorem negation_regular {d : Parse Expr} (hd : RegularExpr x d) (h : RegularExpr x e) :
    RegularExpr x (negation d e) := by
  refine (accept_regular (by decide)).seq fun o => ?_
  cases o with
  | none => exact call_regular h
  | some op => exact hd.seqTaken fun operand => .pure x (by simp [Expr.relabel]) id

/-- An error reported at the token that was taken in front of a production. -/
theorem reportTaken_regularAt {α β : Type} {m : α → α} {m' : β → β} {P : α → Prop}
    {d d' : Parse α} {p q : Parse β} {b : β} {problem : Problem} {s : State} {t : Token}
    {rest : List Token} (hd : Regular x m P d d') (hs : s.after = t :: rest)
    (ht : t.isEnd = false)
    (hp : p.run s =
      (d >>= fun _ => report t problem >>= fun _ => pure b).run (s.pass [t] []))
    (hq : q.run (x.state s) =
      (d' >>= fun _ => report (x.token t) problem >>= fun _ => pure (m' b)).run
        ((x.state s).pass [x.token t] [])) :
    RegularAt x m' (fun _ => False) p q s := by
  have hm := Moved.pass_one hs ht
  constructor
  · rw [hp, EStateM.run_bind]
    have hf := (hd (s.pass [t] [])).frame
    cases hr : d.run (s.pass [t] []) with
    | ok a s₁ =>
      obtain ⟨hdep, ts, es, hm'⟩ := hd.ok hr
      have h := hm.trans hm'
      refine ⟨hdep, t :: ts, es ++ [⟨problem, t⟩], h.after, h.before, ?_, h.inner, ?_⟩
      · change s₁.errors.push _ = _
        rw [h.errors]
        simp
      · intro e he
        rcases List.mem_append.mp he with he | he
        · exact h.located e he
        · obtain rfl := List.mem_singleton.mp he
          exact Or.inl (by simp)
    | error e s₁ =>
      rw [hr] at hf
      have hf' := Frame.trans (s := s) (s.pass [t] []) rfl ⟨[t], [], hm⟩ hf
      cases e <;> exact hf'
  · exact fun _ _ _ h => h.elim
  · intro hend
    have hc := (hd (s.pass [t] [])).carry (hm.hasEnd hend)
    rw [x.state_pass [t] hs, List.map_cons, List.map_nil, List.map_nil] at hc
    rw [hp, hq, EStateM.run_bind, EStateM.run_bind, hc]
    cases d.run (s.pass [t] []) with
    | ok a s₁ =>
      simp only [Context.result, report, EStateM.run_bind, EStateM.run_modify, EStateM.run_pure]
      simp [Context.state, ParseError.relabel]
    | error e s₁ => rfl

/-- What follows a target follows the law, and may be nothing; the target may carry other labels. -/
theorem assignmentRest_regular {d : Parse Expr} (hd : RegularExpr x d) (target : Expr) :
    Regular x (Expr.relabel x.toRelabeling) (fun _ => False) (assignmentRest d target)
      (assignmentRest d (target.relabel x.toRelabeling)) := by
  refine .ofCurrent (fun s hs => ?_) fun s t rest hs => ?_
  · unfold assignmentRest accept looksAt
    simp [current_nil hs]
  have hx := Context.state_after (x := x) hs
  by_cases ht : t.kind = .assign
  · have hend : t.isEnd = false := by simp [Token.isEnd, ht]
    have hp : (assignmentRest d target).run s =
        (assignedValue d t target).run (s.pass [t] []) := by
      unfold assignmentRest
      rw [bind_of_ok (accept_of_kind hs ht (by decide))]
    have hq : (assignmentRest d (target.relabel x.toRelabeling)).run (x.state s) =
        (assignedValue d (x.token t) (target.relabel x.toRelabeling)).run
          ((x.state s).pass [x.token t] []) := by
      unfold assignmentRest
      rw [bind_of_ok (accept_of_kind hx (by simpa using ht) (by decide))]
    by_cases htarget : ∃ token, target = .name token
    · obtain ⟨token, rfl⟩ := htarget
      refine Regular.of_pass ?_ [t] hs (by simpa using hend) hp fun _ => hq
      exact hd.seq fun value => .pure x (by simp [Expr.relabel]) id
    · have hname : ∀ (t : Token) (target : Expr), (¬ ∃ token, target = .name token) →
          assignedValue d t target =
            (d >>= fun _ => report t .invalidTarget >>= fun _ => pure target) := by
        intro t target h
        unfold assignedValue
        cases target <;> first | rfl | exact absurd ⟨_, rfl⟩ h
      have htarget' : ¬ ∃ token, target.relabel x.toRelabeling = .name token := by
        rintro ⟨token, h⟩
        cases target <;> simp [Expr.relabel] at h
        exact htarget ⟨_, rfl⟩
      rw [hname t target htarget] at hp
      rw [hname _ _ htarget'] at hq
      exact reportTaken_regularAt hd hs hend hp hq
  · refine .stay (a := target) ?_ id ?_
    · unfold assignmentRest
      rw [bind_of_ok (accept_of_ne hs ht)]
      rfl
    · unfold assignmentRest
      rw [bind_of_ok (accept_of_ne hx (by simpa using ht))]
      rfl

/-- An assignment follows the law if its target and its value do. -/
theorem assignment_regular {d : Parse Expr} (h : RegularExpr x e) (hd : RegularExpr x d) :
    RegularExpr x (assignment e d) := by
  rw [assignment_eq]
  exact (tier_regular h 6).seqTaken fun target => assignmentRest_regular hd target

end Expressions

section Statements

variable {e : Parse Expr} {d st : Parse Stmt}

/-- A round of a body follows the law, and ends it in front of the stop or the mark of the end. -/
theorem declarationRound_regular (h : RegularStmt x d) (stop : Kind) (stmts : Array Stmt) :
    Regular x (Round.map (Array.map (Stmt.relabel x.toRelabeling))
        (List.map (Stmt.relabel x.toRelabeling)))
      Round.Again (declarationRound d stop stmts)
      (declarationRound d stop (stmts.map (Stmt.relabel x.toRelabeling))) := by
  refine (looksAt_regular _).seq fun stopped => atEnd_regular.seq fun ended => ?_
  simp only [id_eq]
  split
  · exact .pure x (by simp [Round.map]) id
  · exact h.seqTaken fun stmt => .pure x (by simp [Round.map]) id

/-- A body follows the law, and may be empty. -/
theorem declarationsUntil_regular (h : RegularStmt x d) (stop : Kind) :
    Regular x (List.map (Stmt.relabel x.toRelabeling)) (fun _ => False)
      (declarationsUntil d stop) (declarationsUntil d stop) := by
  rw [declarationsUntil_eq]
  simpa using repeated_regular (declarationRound_regular h stop) #[]

/-- A function follows the law behind its keyword if its declarations do. -/
theorem functionRest_regular (h : RegularStmt x d) : RegularStmt x (functionRest d) := by
  unfold functionRest
  simp only [discard_bind]
  refine (expect_regular (by decide)).seqTaken fun name => ?_
  refine (expect_regular (by decide)).seq fun _ => ?_
  refine (looksAt_regular _).seq fun none => ?_
  have hrest : ∀ params : List Token, Regular x (Stmt.relabel x.toRelabeling) (fun _ => False)
      (expect .rightParen (.expected "')' after parameters") >>= fun _ =>
        declarationsUntil d .endKeyword >>= fun body =>
          expect .endKeyword (.expected "'end' after function body") >>= fun _ =>
            pure (.function name params body))
      (expect .rightParen (.expected "')' after parameters") >>= fun _ =>
        declarationsUntil d .endKeyword >>= fun body =>
          expect .endKeyword (.expected "'end' after function body") >>= fun _ =>
            pure (.function (x.token name) (params.map x.token) body)) := by
    intro params
    refine (expect_regular (by decide)).seq fun _ => ?_
    refine (declarationsUntil_regular h _).seq fun body => ?_
    exact (expect_regular (by decide)).seq fun _ => .pure x (by simp [Stmt.relabel]) id
  simp only [id_eq, pure_bind]
  split
  · exact hrest []
  · exact (commaSeparated_regular (expect_regular (by decide)) _).seq hrest

/-- A local variable follows the law, with a value or without. -/
theorem localVariable_regular (h : RegularExpr x e) : RegularStmt x (localVariable e) := by
  unfold localVariable
  simp only [discard_bind]
  refine (expect_regular (by decide)).seqTaken fun name => ?_
  refine (accept_regular (by decide)).seq fun o => ?_
  rw [Option.isSome_map]
  simp only [pure_bind]
  split
  · refine h.seq fun initial => (expect_regular (by decide)).seq fun _ => ?_
    exact .pure x (by simp [Stmt.relabel]) id
  · exact (expect_regular (by decide)).seq fun _ => .pure x (by simp [Stmt.relabel]) id

/-- A conditional follows the law, with a second branch or without. -/
theorem conditional_regular (h : RegularExpr x e) (hst : RegularStmt x st) :
    RegularStmt x (conditional e st) := by
  unfold conditional
  simp only [discard_bind]
  refine h.seqTaken fun cond => (expect_regular (by decide)).seq fun _ => ?_
  refine hst.seq fun body => (accept_regular (by decide)).seq fun o => ?_
  rw [Option.isSome_map]
  simp only [pure_bind]
  split
  · refine hst.seq fun otherwise => (expect_regular (by decide)).seq fun _ => ?_
    exact .pure x (by simp [Stmt.relabel]) id
  · exact (expect_regular (by decide)).seq fun _ => .pure x (by simp [Stmt.relabel]) id

/-- A loop follows the law if its condition and its body do. -/
theorem whileLoop_regular (h : RegularExpr x e) (hst : RegularStmt x st) :
    RegularStmt x (whileLoop e st) := by
  unfold whileLoop
  simp only [discard_bind]
  refine h.seqTaken fun cond => (expect_regular (by decide)).seq fun _ => ?_
  refine hst.seq fun body => (expect_regular (by decide)).seq fun _ => ?_
  exact .pure x (by simp [Stmt.relabel]) id

/-- A return follows the law; its keyword was read before, so that it may carry another label. -/
theorem returnedBy_regular (h : RegularExpr x e) (keyword : Token) :
    Regular x (Stmt.relabel x.toRelabeling) (fun _ => True) (returnedBy keyword e)
      (returnedBy (x.token keyword) e) := by
  unfold returnedBy
  refine (looksAt_regular _).seq fun none => ?_
  simp only [id_eq, pure_bind]
  split
  · exact (expect_regular (by decide)).seqTaken fun _ => .pure x (by simp [Stmt.relabel]) id
  · refine h.seqTaken fun value => (expect_regular (by decide)).seq fun _ => ?_
    exact .pure x (by simp [Stmt.relabel]) id

/-- A block follows the law up to its closing brace, and takes at least that. -/
theorem block_regular (h : RegularStmt x d) :
    Regular x (List.map (Stmt.relabel x.toRelabeling)) (fun _ => True) (block d) (block d) := by
  unfold block
  simp only [discard_bind]
  refine (declarationsUntil_regular h _).seq fun body => ?_
  exact (expect_regular (by decide)).seqTaken fun _ => .pure x rfl id

/-- An expression as a statement follows the law up to its semicolon. -/
theorem expressionStatement_regular (h : RegularExpr x e) :
    RegularStmt x (expressionStatement e) := by
  unfold expressionStatement
  simp only [discard_bind]
  refine h.seqTaken fun expr => (expect_regular (by decide)).seq fun _ => ?_
  exact .pure x (by simp [Stmt.relabel]) id

/-- A statement follows the law, and only the kind of the token at the cursor decides which one it
is. -/
theorem statementRest_regular (h : RegularExpr x e) (hst : RegularStmt x st)
    (hd : RegularStmt x d) : RegularStmt x (statementRest e st d) := by
  rw [statementRest_eq]
  refine (accept_regular (by decide)).seq fun o => ?_
  rw [Option.isSome_map]
  split
  · exact conditional_regular h hst
  refine (accept_regular (by decide)).seq fun o => ?_
  rw [Option.isSome_map]
  split
  · exact whileLoop_regular h hst
  refine (accept_regular (by decide)).seq fun o => ?_
  rw [Option.isSome_map]
  split
  · exact (block_regular hd).seqTaken fun body => .pure x (by simp [Stmt.relabel]) id
  refine (accept_regular (by decide)).seq fun o => ?_
  cases o with
  | some keyword => exact returnedBy_regular h keyword
  | none =>
    simp only [Option.map_none, Option.elim_none]
    exact expressionStatement_regular h

/-- A declaration follows the law, be it a function, a local variable or a statement. -/
theorem declarationOf_regular {f : Parse Stmt} (h : RegularExpr x e) (hf : RegularStmt x f)
    (hst : RegularStmt x st) : RegularStmt x (declarationOf e f st) := by
  unfold declarationOf
  refine (accept_regular (by decide)).seq fun o => ?_
  rw [Option.isSome_map]
  split
  · exact hf
  refine (accept_regular (by decide)).seq fun o => ?_
  rw [Option.isSome_map]
  split
  · exact localVariable_regular h
  · exact hst

end Statements

/-- The recursive productions follow the law however much room is left. -/
theorem rules_regular (x : Context) (n : Nat) :
    RegularExpr x (rules n).unary ∧ RegularExpr x (rules n).expression ∧
      RegularStmt x (rules n).function ∧ RegularStmt x (rules n).statement := by
  induction n with
  | zero =>
    exact ⟨negation_regular (overrun_regular _) (overrun_regular _), overrun_regular _,
      overrun_regular _, overrun_regular _⟩
  | succ n ih =>
    obtain ⟨hu, he, hf, hst⟩ := ih
    have hd := declarationOf_regular he hf hst
    have he' := nested_regular "expression" (assignment_regular hu he)
    exact ⟨negation_regular (nested_regular _ hu) he', he',
      nested_regular _ (functionRest_regular hd),
      nested_regular _ (statementRest_regular he hst hd)⟩

/-- Declarations follow the law however much room is left. -/
theorem declaration_regular (x : Context) (n : Nat) : RegularStmt x (rules n).declaration := by
  obtain ⟨-, he, hf, hst⟩ := rules_regular x n
  exact declarationOf_regular he hf hst

end Moonbridge.Parser
