import Moonbridge.Proofs.Parser.Discerning
import Moonbridge.Proofs.Parser.HeightCheck

/-!
# Each production by itself

Every production can be run by itself, from any state in which the mark of the end is still to
come. Then it answers or it is rejected, and what it has done to the state is the same for all of
them: an answer takes a token and leaves as many productions open as before, a rejection stands at
the cursor and may leave more of them open, and neither passes the mark of the end, changes the
tokens or takes back what was recorded.
-/

namespace Moonbridge.Parser

/-- The productions, with the type of their answers. -/
inductive Production : Type → Type
  | declaration : Production Stmt
  | function : Production Stmt
  | localVariable : Production Stmt
  | statement : Production Stmt
  | conditional : Production Stmt
  | whileLoop : Production Stmt
  | block : Production (List Stmt)
  | returned : Production Stmt
  | expressionStatement : Production Stmt
  /-- An expression, which is an assignment. -/
  | expression : Production Expr
  | disjunction : Production Expr
  | conjunction : Production Expr
  | equality : Production Expr
  | comparison : Production Expr
  | term : Production Expr
  | factor : Production Expr
  | unary : Production Expr
  | call : Production Expr
  | finishCall (callee : Expr) : Production Expr
  | primary : Production Expr
  | table : Production Expr
  | entry : Production Entry

namespace Production

variable {α : Type}

/-- A production that refers to the given ones. -/
def within (r : Rules) : Production α → Parse α
  | declaration => r.declaration
  | function => r.function
  | localVariable => Parser.localVariable r.expression
  | statement => r.statement
  | conditional => Parser.conditional r.expression r.statement
  | whileLoop => Parser.whileLoop r.expression r.statement
  | block => Parser.block r.declaration
  | returned => Parser.returned r.expression
  | expressionStatement => Parser.expressionStatement r.expression
  | expression => r.expression
  | disjunction => Parser.disjunction r.unary
  | conjunction => Parser.conjunction r.unary
  | equality => Parser.equality r.unary
  | comparison => Parser.comparison r.unary
  | term => Parser.term r.unary
  | factor => Parser.factor r.unary
  | unary => r.unary
  | call => Parser.call r.expression
  | finishCall callee => Parser.finishCall r.expression callee
  | primary => Parser.primary r.expression
  | table => Parser.table r.expression
  | entry => Parser.entry r.expression

/-- A production by itself, which opens as many levels as the state leaves room for. -/
def parse (p : Production α) : Parse α := here fun r => p.within r

/-- A production by itself runs at the level that its state leaves. -/
theorem run_parse (p : Production α) (s : State) :
    p.parse.run s = (p.within (rules s.room)).run s := rfl

/-- A production records what it goes on with, and ends with what it does not record. -/
theorem discerning (p : Production α) (n : Nat) : Discerning (p.within (rules n)) := by
  obtain ⟨hu, he, hf, hst⟩ := rules_discerning n
  have hd := declarationOf_discerning he hf hst
  cases p with
  | declaration => exact hd
  | function => exact hf
  | localVariable => exact localVariable_discerning he
  | statement => exact hst
  | conditional => exact conditional_discerning he hst
  | whileLoop => exact whileLoop_discerning he hst
  | block => exact block_discerning hd
  | returned => exact returned_discerning he
  | expressionStatement => exact expressionStatement_discerning he
  | expression => exact he
  | disjunction => exact tier_discerning hu 6
  | conjunction => exact tier_discerning hu 5
  | equality => exact tier_discerning hu 4
  | comparison => exact tier_discerning hu 3
  | term => exact tier_discerning hu 2
  | factor => exact tier_discerning hu 1
  | unary => exact hu
  | call => exact call_discerning he
  | finishCall callee => exact finishCall_discerning he callee
  | primary => exact primary_discerning he
  | table => exact table_discerning he
  | entry => exact entry_discerning he

/-- A production runs like one that follows the law and whose answers cost a token. Only a return
looks back: its keyword is the token before the cursor. -/
theorem exists_regular (p : Production α) (n : Nat) {s : State} (hs : s.tokens ≠ []) :
    ∃ (m : α → α) (q q' : Parse α), (p.within (rules n)).run s = q.run s ∧
      Regular .alone m (fun _ => True) q q' := by
  obtain ⟨hu, he, hf, hst⟩ := rules_regular .alone n
  have hd := declaration_regular .alone n
  cases p with
  | declaration => exact ⟨_, _, _, rfl, hd⟩
  | function => exact ⟨_, _, _, rfl, hf⟩
  | localVariable => exact ⟨_, _, _, rfl, localVariable_regular he⟩
  | statement => exact ⟨_, _, _, rfl, hst⟩
  | conditional => exact ⟨_, _, _, rfl, conditional_regular he hst⟩
  | whileLoop => exact ⟨_, _, _, rfl, whileLoop_regular he hst⟩
  | block => exact ⟨_, _, _, rfl, block_regular hd⟩
  | returned =>
    obtain ⟨keyword, hkeyword⟩ := exists_previous hs
    refine ⟨_, _, _, ?_, returnedBy_regular he keyword⟩
    unfold within Parser.returned
    rw [bind_of_ok hkeyword]
    simp only [discard_bind]
    rfl
  | expressionStatement => exact ⟨_, _, _, rfl, expressionStatement_regular he⟩
  | expression => exact ⟨_, _, _, rfl, he⟩
  | disjunction => exact ⟨_, _, _, rfl, tier_regular hu 6⟩
  | conjunction => exact ⟨_, _, _, rfl, tier_regular hu 5⟩
  | equality => exact ⟨_, _, _, rfl, tier_regular hu 4⟩
  | comparison => exact ⟨_, _, _, rfl, tier_regular hu 3⟩
  | term => exact ⟨_, _, _, rfl, tier_regular hu 2⟩
  | factor => exact ⟨_, _, _, rfl, tier_regular hu 1⟩
  | unary => exact ⟨_, _, _, rfl, hu⟩
  | call => exact ⟨_, _, _, rfl, call_regular he⟩
  | finishCall callee => exact ⟨_, _, _, rfl, finishCall_regular he callee⟩
  | primary => exact ⟨_, _, _, rfl, primary_regular he⟩
  | table => exact ⟨_, _, _, rfl, table_regular he⟩
  | entry => exact ⟨_, _, _, rfl, entry_regular he⟩

end Production

section Cursor

variable {s s' : State} {ts : List Token} {es : List ParseError}

/-- A token list with a mark of the end is not empty. -/
theorem State.HasEnd.tokens_ne_nil (h : s.HasEnd) : s.tokens ≠ [] := by
  obtain ⟨t, rest, hafter⟩ := h.exists_cons
  simp [State.tokens, hafter]

/-- The token at the cursor is found at the index of the cursor. -/
theorem State.tokens_position (s : State) : s.tokens[s.position]? = s.after.head? := by
  unfold State.tokens State.position
  rw [List.getElem?_append_right (by simp), List.head?_eq_getElem?]
  simp

/-- Moving the cursor changes no token. -/
theorem Moved.tokens_eq (h : Moved s s' ts es) : s'.tokens = s.tokens := by
  simp [State.tokens, h.before, h.after]

/-- The position counts the tokens that are passed. -/
theorem Moved.position_eq (h : Moved s s' ts es) : s'.position = s.position + ts.length := by
  simp [State.position, h.before, Nat.add_comm]

/-- No mark of the end is passed. -/
theorem Moved.position_le (h : Moved s s' ts es) {k : Nat} {t : Token} (hk : s.position ≤ k)
    (ht : s.tokens[k]? = some t) (hend : t.isEnd = true) : s'.position ≤ k := by
  refine Nat.le_of_not_lt fun hlt => ?_
  have hin : k - s.position < ts.length := by
    have hposition := h.position_eq
    omega
  have hfound : ts[k - s.position]? = some t := by
    rw [← ht, State.tokens, List.getElem?_append_right (by simpa [State.position] using hk),
      h.after, List.getElem?_append_left (by simpa [State.position] using hin)]
    simp [State.position]
  have hinner := h.inner t (List.mem_of_getElem? hfound)
  simp [hend] at hinner

end Cursor

/-- How a run moves the cursor: never back, and never over a mark of the end. -/
structure Advanced (s s' : State) : Prop where
  tokens : s'.tokens = s.tokens
  forward : s.position ≤ s'.position
  before_end : ∀ k t, s.position ≤ k → s.tokens[k]? = some t → t.isEnd = true → s'.position ≤ k

/-- What an answer leaves behind. -/
structure Answered (s s' : State) : Prop extends Advanced s s' where
  depth : s'.depth = s.depth
  takes : s.position < s'.position
  errors : ∃ es : List ParseError, s'.errors = s.errors ++ es.toArray

/-- What a rejection leaves behind. Its error is at the cursor, and it is not recorded. -/
structure RejectedBy (e : ParseError) (s s' : State) : Prop extends Advanced s s' where
  depth : s.depth ≤ s'.depth
  located : s'.tokens[s'.position]? = some e.token
  errors : ∃ es : List ParseError, s'.errors = s.errors ++ es.toArray ∧ e ∉ es

/-- To move is to advance, never back and never over the mark of the end. -/
theorem Moved.advanced {s s' : State} {ts : List Token} {es : List ParseError}
    (h : Moved s s' ts es) : Advanced s s' where
  tokens := h.tokens_eq
  forward := by rw [h.position_eq]; exact Nat.le_add_right _ _
  before_end _ _ hk ht hend := h.position_le hk ht hend

/-- Where the mark of the end is still to come, every production by itself answers or is rejected,
and does to the state no more than an answer or a rejection may do. -/
theorem production_framed {α : Type} (p : Production α) {s : State} (hs : s.HasEnd) :
    (∃ answer s', p.parse.run s = .ok answer s' ∧ Answered s s') ∨
      ∃ e s', p.parse.run s = .error (.rejected e) s' ∧ RejectedBy e s s' := by
  obtain ⟨m, q, q', hrun, hregular⟩ := p.exists_regular s.room hs.tokens_ne_nil
  have hdiscerned := p.discerning s.room s
  rw [p.run_parse, hrun]
  rw [hrun] at hdiscerned
  cases hq : q.run s with
  | ok answer s' =>
    obtain ⟨hdepth, ts, es, hmoved⟩ := hregular.ok hq
    have htakes := (hregular s).takes answer s' hq trivial
    refine .inl ⟨answer, s', rfl, hmoved.advanced, hdepth, ?_, es, hmoved.errors⟩
    have hlength := congrArg List.length hmoved.after
    rw [List.length_append] at hlength
    rw [hmoved.position_eq]
    omega
  | error failure s' =>
    cases failure with
    | rejected e =>
      obtain ⟨hdepth, hcursor, ts, es, hmoved⟩ := hregular.rejected hq
      rw [hq] at hdiscerned
      obtain ⟨⟨fs, herrors, hpassable⟩, hraised⟩ := hdiscerned
      refine .inr ⟨e, s', rfl, hmoved.advanced, hdepth, ?_, fs, herrors, ?_⟩
      · rw [s'.tokens_position, hcursor]
      · exact fun hmem => hraised (hpassable e hmem)
    | exhausted =>
      obtain ⟨hnil, ts, es, hmoved⟩ := hregular.exhausted hq
      obtain ⟨t, rest, hafter⟩ := (hmoved.hasEnd hs).exists_cons
      simp [hnil] at hafter

/-- The value of an assignment is read by itself, behind the equals sign. -/
theorem production_framed_value :
    ((State.start sampleTokens).pass (sampleTokens.take 2) []).HasEnd ∧
      ((∃ answer s', Production.expression.parse.run
          ((State.start sampleTokens).pass (sampleTokens.take 2) []) = .ok answer s' ∧
            Answered ((State.start sampleTokens).pass (sampleTokens.take 2) []) s') ∨
        ∃ e s', Production.expression.parse.run
          ((State.start sampleTokens).pass (sampleTokens.take 2) []) = .error (.rejected e) s' ∧
            RejectedBy e ((State.start sampleTokens).pass (sampleTokens.take 2) []) s') := by
  have hend : ((State.start sampleTokens).pass (sampleTokens.take 2) []).HasEnd :=
    ⟨⟨.endOfInput, "", .nil, 1⟩, by simp [State.start, sampleTokens], rfl⟩
  exact ⟨hend, production_framed .expression hend⟩

end Moonbridge.Parser
