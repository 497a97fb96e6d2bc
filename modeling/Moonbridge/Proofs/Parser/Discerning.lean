import Moonbridge.Proofs.Parser.Law

/-!
# What is recorded and what ends a production

While a production goes on it records nothing but lists that are too long and wrong targets, and
neither of the two ever ends one. So the error that ends a production is none of those that the
production has recorded before. The argument follows the productions: each of them tells the two
kinds apart if the ones it refers to do.
-/

namespace Moonbridge.Parser

/-- The problems that a production records and goes on with. -/
def Problem.Passable : Problem → Prop
  | tooMany _ | invalidTarget => True
  | expected _ | tooDeep _ | other _ => False

/-- From `s` to `s'` only errors were recorded after which a production goes on. -/
def Records (s s' : State) : Prop :=
  ∃ es : List ParseError, s'.errors = s.errors ++ es.toArray ∧ ∀ e ∈ es, e.problem.Passable

/-- Where no error is recorded, only such errors are recorded. -/
theorem Records.of_errors {s s' : State} (h : s'.errors = s.errors) : Records s s' :=
  ⟨[], by simp [h], by simp⟩

/-- What is recorded on two ways in a row is recorded on both. -/
theorem Records.trans {s s₁ s' : State} (h : Records s s₁) (h' : Records s₁ s') :
    Records s s' := by
  obtain ⟨es, he, hes⟩ := h
  obtain ⟨fs, hf, hfs⟩ := h'
  refine ⟨es ++ fs, by rw [hf, he]; simp, fun e hmem => ?_⟩
  exact (List.mem_append.mp hmem).elim (hes e) (hfs e)

/-- What an outcome says about the errors recorded on the way to it, and about its own. -/
def Discerned {α : Type} (s : State) : EStateM.Result Failure State α → Prop
  | .ok _ s' | .error .exhausted s' => Records s s'
  | .error (.rejected e) s' => Records s s' ∧ ¬ e.problem.Passable

/-- What is recorded in front of a run counts with what the run records. -/
theorem Discerned.trans {α : Type} {s s₁ : State} (h : Records s s₁)
    {r : EStateM.Result Failure State α} (h' : Discerned s₁ r) : Discerned s r := by
  match r, h' with
  | .ok _ _, h' => exact h.trans h'
  | .error (.rejected _) _, ⟨h', he⟩ => exact ⟨h.trans h', he⟩
  | .error .exhausted _, h' => exact h.trans h'

/-- A production that records what it goes on with, and ends with what it does not record. -/
def Discerning {α : Type} (p : Parse α) : Prop := ∀ s, Discerned s (p.run s)

namespace Discerning

variable {α β : Type} {p : Parse α} {f : α → Parse β}

theorem pure (a : α) : Discerning (Pure.pure a) := fun _ => Records.of_errors rfl

/-- Failing with a problem that is never recorded. -/
theorem reject {problem : Problem} (h : ¬ problem.Passable) (t : Token) :
    Discerning (throw (.rejected ⟨problem, t⟩) : Parse α) :=
  fun _ => ⟨Records.of_errors rfl, h⟩

theorem exhaust : Discerning (throw .exhausted : Parse α) := fun _ => Records.of_errors rfl

/-- Recording a problem and going on. -/
theorem report (problem : Problem) (h : problem.Passable) (t : Token) :
    Discerning (Parser.report t problem) :=
  fun s => ⟨[⟨problem, t⟩], by simp, by simpa using h⟩

/-- A change of the state that leaves the recorded errors alone. -/
theorem change {g : State → State} (h : ∀ s, (g s).errors = s.errors) :
    Discerning (modify g : Parse Unit) := fun s => Records.of_errors (h s)

/-- Two productions in a row tell the two kinds apart if each of them does. -/
theorem bind (hp : Discerning p) (hf : ∀ a, Discerning (f a)) : Discerning (p >>= f) := by
  intro s
  have hs := hp s
  rw [EStateM.run_bind]
  cases hrun : p.run s with
  | ok a s₁ =>
    rw [hrun] at hs
    exact Discerned.trans hs (hf a s₁)
  | error e s₁ =>
    rw [hrun] at hs
    cases e <;> exact hs

/-- A loop tells the two kinds apart if its rounds do. -/
theorem rounds {round : α → Parse (Round α β)} (h : ∀ a, Discerning (round a))
    (bound : List Token) (a : α) : Discerning (Parser.rounds round bound a) := by
  induction bound generalizing a with
  | nil =>
    refine (h a).bind fun r => ?_
    cases r with
    | again next => exact exhaust
    | done answer => exact pure _
  | cons t bound ih =>
    refine (h a).bind fun r => ?_
    cases r with
    | again next => exact ih next
    | done answer => exact pure _

/-- A loop tells the two kinds apart if its rounds do. -/
theorem repeated {round : α → Parse (Round α β)} (h : ∀ a, Discerning (round a)) (a : α) :
    Discerning (Parser.repeated round a) := fun s => rounds h s.after a s

section Cursor

theorem current : Discerning Parser.current := by
  intro s
  rw [run_current]
  cases s.after <;> exact Records.of_errors rfl

theorem looksAt (k : Kind) : Discerning (Parser.looksAt k) := current.bind fun _ => pure _

theorem atEnd : Discerning Parser.atEnd := current.bind fun _ => pure _

theorem advance : Discerning Parser.advance := by
  refine current.bind fun t => ?_
  split
  · exact pure t
  · exact Discerning.bind (change fun _ => rfl) fun _ => pure t

theorem peek (offset : Int) : Discerning (Parser.peek offset) := by
  refine Discerning.bind (fun _ => Records.of_errors rfl) fun s => ?_
  simp only []
  split
  · exact pure _
  · exact exhaust

theorem accept (k : Kind) : Discerning (Parser.accept k) := by
  refine (looksAt k).bind fun b => ?_
  split
  · exact advance.bind fun _ => pure _
  · exact pure _

theorem acceptOperator (ops : List BinaryOp) : Discerning (Parser.acceptOperator ops) := by
  refine current.bind fun t => ?_
  split
  · split
    · rw [discard_bind]
      exact advance.bind fun _ => pure _
    · exact pure _
  · exact pure _

/-- A missing token is never only recorded. -/
theorem expect (k : Kind) (what : String) :
    Discerning (Parser.expect k (.expected what)) := by
  refine (accept k).bind fun o => ?_
  cases o with
  | some t => exact pure t
  | none => exact current.bind fun t => reject id t

end Cursor

section Levels

/-- Too deep a nesting ends a production. -/
theorem overrun (what : String) : Discerning (Parser.overrun what : Parse α) := by
  unfold Parser.overrun
  exact Discerning.bind (change fun _ => rfl) fun _ => current.bind fun t => reject id t

/-- Opening a level around a production that tells the two kinds apart. -/
theorem nested (h : Discerning p) (what : String) : Discerning (Parser.nested what p) := by
  have henter : Discerning (enter what) := by
    refine Discerning.bind (fun _ => Records.of_errors rfl) fun s => ?_
    split
    · exact overrun what
    · exact change fun _ => rfl
  exact henter.bind fun _ => h.bind fun a =>
    Discerning.bind (change fun _ => rfl) fun _ => pure a

end Levels

end Discerning

section Expressions

variable {u e d : Parse Expr}

/-- A list records when it is too long, and goes on. -/
theorem commaSeparated_discerning {α : Type} {item : Parse α} (h : Discerning item)
    (what : String) : Discerning (commaSeparated item what) := by
  rw [commaSeparated_eq]
  refine h.bind fun first => .repeated (fun items => ?_) _
  refine (Discerning.accept _).bind fun o => ?_
  have hnext : Discerning
      (item >>= fun a => pure (.again (items.push a)) : Parse (Round (Array α) (List α))) :=
    h.bind fun a => .pure _
  cases o with
  | none => exact .pure _
  | some comma =>
    simp only []
    split
    · exact Discerning.current.bind fun t =>
        (Discerning.report (.tooMany what) trivial t).bind fun _ => hnext
    · exact hnext

/-- A chain of operators tells the two kinds apart if its operands do. -/
theorem chain_discerning (ops : List BinaryOp) (h : Discerning e) : Discerning (chain ops e) := by
  rw [chain_eq]
  refine h.bind fun first => .repeated (fun left => ?_) _
  refine (Discerning.acceptOperator ops).bind fun o => ?_
  cases o with
  | none => exact .pure _
  | some op => exact h.bind fun _ => .pure _

/-- A tier of operators tells them apart if unary expressions do. -/
theorem tier_discerning (h : Discerning u) (n : Nat) : Discerning (tier u n) := by
  induction n with
  | zero => exact h
  | succ n ih => exact chain_discerning (tierOps n) ih

/-- A table entry tells them apart if expressions do. -/
theorem entry_discerning (h : Discerning e) : Discerning (entry e) := by
  unfold entry
  simp only [discard_bind]
  refine (Discerning.accept _).bind fun o => ?_
  split
  · refine h.bind fun key => (Discerning.expect _ _).bind fun _ => ?_
    exact (Discerning.expect _ _).bind fun _ => h.bind fun _ => .pure _
  simp only [pure_bind]
  have hkeyed : Discerning
      (advance >>= fun name => advance >>= fun _ => e >>= fun value =>
        pure (Entry.keyed (.literal (.text name.lexeme)) value)) :=
    Discerning.advance.bind fun _ => Discerning.advance.bind fun _ => h.bind fun _ => .pure _
  have hpositional : Discerning (positionalEntry e) := h.bind fun _ => .pure _
  refine (Discerning.looksAt _).bind fun named => ?_
  split
  · refine (Discerning.peek 1).bind fun next => ?_
    split
    · exact hkeyed
    · exact hpositional
  · exact hpositional

/-- A table tells them apart if expressions do. -/
theorem table_discerning (h : Discerning e) : Discerning (table e) := by
  rw [table_eq]
  refine (Discerning.repeated (fun entries => ?_) _).bind fun entries =>
    (Discerning.expect _ _).bind fun _ => .pure _
  refine (Discerning.looksAt _).bind fun closed => ?_
  split
  · exact .pure _
  · refine (entry_discerning h).bind fun next => (Discerning.accept _).bind fun comma => ?_
    split <;> exact .pure _

/-- What stands at the tightest level tells them apart if expressions do. -/
theorem primary_discerning (h : Discerning e) : Discerning (primary e) := by
  unfold primary
  simp only [discard_bind]
  refine Discerning.current.bind fun t => ?_
  split
  · exact Discerning.advance.bind fun _ => .pure _
  · exact Discerning.advance.bind fun _ => .pure _
  · exact Discerning.advance.bind fun _ => .pure _
  · exact Discerning.advance.bind fun _ => .pure _
  · exact Discerning.advance.bind fun _ => table_discerning h
  · refine Discerning.advance.bind fun _ => h.bind fun inner => ?_
    exact (Discerning.expect _ _).bind fun _ => .pure _
  · exact .reject id t

/-- The arguments of a call tell them apart if expressions do. -/
theorem finishCall_discerning (h : Discerning e) (callee : Expr) :
    Discerning (finishCall e callee) := by
  unfold finishCall
  refine (Discerning.looksAt _).bind fun none => ?_
  simp only [pure_bind]
  split
  · exact (Discerning.expect _ _).bind fun _ => .pure _
  · refine (commaSeparated_discerning h _).bind fun args => ?_
    exact (Discerning.expect _ _).bind fun _ => .pure _

/-- A call tells them apart if expressions do. -/
theorem call_discerning (h : Discerning e) : Discerning (call e) := by
  rw [call_eq]
  refine (primary_discerning h).bind fun first => .repeated (fun callee => ?_) _
  refine (Discerning.accept _).bind fun o => ?_
  split
  · exact (finishCall_discerning h callee).bind fun _ => .pure _
  refine (Discerning.accept _).bind fun o => ?_
  split
  · exact (Discerning.expect _ _).bind fun _ => .pure _
  refine (Discerning.accept _).bind fun o => ?_
  split
  · exact h.bind fun key => (Discerning.expect _ _).bind fun _ => .pure _
  · exact .pure _

/-- A negation tells them apart if what stands behind the sign and without one does. -/
theorem negation_discerning (hd : Discerning d) (h : Discerning e) :
    Discerning (negation d e) := by
  refine (Discerning.accept _).bind fun o => ?_
  cases o with
  | none => exact call_discerning h
  | some minus => exact hd.bind fun _ => .pure _

/-- An assignment records a target that cannot be assigned to, and goes on. -/
theorem assignment_discerning (hu : Discerning u) (hd : Discerning d) :
    Discerning (assignment u d) := by
  rw [assignment_eq]
  refine (tier_discerning hu 6).bind fun target => (Discerning.accept _).bind fun o => ?_
  cases o with
  | none => exact .pure _
  | some equals =>
    refine hd.bind fun value => ?_
    split
    · exact .pure _
    · exact (Discerning.report .invalidTarget trivial _).bind fun _ => .pure _

end Expressions

section Statements

variable {e : Parse Expr} {st d f : Parse Stmt}

/-- A body tells the two kinds apart if its declarations do. -/
theorem declarationsUntil_discerning (h : Discerning d) (stop : Kind) :
    Discerning (declarationsUntil d stop) := by
  rw [declarationsUntil_eq]
  refine .repeated (fun stmts => ?_) _
  refine (Discerning.looksAt _).bind fun stopped => Discerning.atEnd.bind fun ended => ?_
  split
  · exact .pure _
  · exact h.bind fun _ => .pure _

/-- A function tells them apart if its declarations do. -/
theorem functionRest_discerning (h : Discerning d) : Discerning (functionRest d) := by
  unfold functionRest
  simp only [discard_bind, pure_bind]
  refine (Discerning.expect _ _).bind fun name => (Discerning.expect _ _).bind fun _ => ?_
  have hrest : ∀ params : List Token,
      Discerning (expect .rightParen (.expected "')' after parameters") >>= fun _ =>
        declarationsUntil d .endKeyword >>= fun body =>
          expect .endKeyword (.expected "'end' after function body") >>= fun _ =>
            pure (Stmt.function name params body)) := fun params =>
    (Discerning.expect _ _).bind fun _ => (declarationsUntil_discerning h _).bind fun body =>
      (Discerning.expect _ _).bind fun _ => .pure _
  refine (Discerning.looksAt _).bind fun none => ?_
  split
  · exact hrest []
  · exact (commaSeparated_discerning (.expect _ _) _).bind hrest

/-- A local variable tells them apart if its value does. -/
theorem localVariable_discerning (h : Discerning e) : Discerning (localVariable e) := by
  unfold localVariable
  simp only [discard_bind, pure_bind]
  refine (Discerning.expect _ _).bind fun name => (Discerning.accept _).bind fun o => ?_
  split
  · exact h.bind fun _ => (Discerning.expect _ _).bind fun _ => .pure _
  · exact (Discerning.expect _ _).bind fun _ => .pure _

/-- A conditional tells them apart if its condition and its branches do. -/
theorem conditional_discerning (h : Discerning e) (hst : Discerning st) :
    Discerning (conditional e st) := by
  unfold conditional
  simp only [discard_bind, pure_bind]
  refine h.bind fun cond => (Discerning.expect _ _).bind fun _ => hst.bind fun body => ?_
  refine (Discerning.accept _).bind fun o => ?_
  split
  · exact hst.bind fun _ => (Discerning.expect _ _).bind fun _ => .pure _
  · exact (Discerning.expect _ _).bind fun _ => .pure _

/-- A loop tells them apart if its condition and its body do. -/
theorem whileLoop_discerning (h : Discerning e) (hst : Discerning st) :
    Discerning (whileLoop e st) := by
  unfold whileLoop
  simp only [discard_bind]
  refine h.bind fun cond => (Discerning.expect _ _).bind fun _ => hst.bind fun body => ?_
  exact (Discerning.expect _ _).bind fun _ => .pure _

/-- A block tells them apart if its declarations do. -/
theorem block_discerning (h : Discerning d) : Discerning (block d) := by
  unfold block
  simp only [discard_bind]
  exact (declarationsUntil_discerning h _).bind fun _ =>
    (Discerning.expect _ _).bind fun _ => .pure _

/-- A return tells them apart if its value does. -/
theorem returned_discerning (h : Discerning e) : Discerning (returned e) := by
  unfold returned
  simp only [discard_bind, pure_bind]
  refine (Discerning.peek _).bind fun keyword => (Discerning.looksAt _).bind fun none => ?_
  split
  · exact (Discerning.expect _ _).bind fun _ => .pure _
  · exact h.bind fun _ => (Discerning.expect _ _).bind fun _ => .pure _

/-- An expression as a statement tells them apart if expressions do. -/
theorem expressionStatement_discerning (h : Discerning e) :
    Discerning (expressionStatement e) := by
  unfold expressionStatement
  simp only [discard_bind]
  exact h.bind fun _ => (Discerning.expect _ _).bind fun _ => .pure _

/-- A statement tells them apart if everything it may consist of does. -/
theorem statementRest_discerning (h : Discerning e) (hst : Discerning st) (hd : Discerning d) :
    Discerning (statementRest e st d) := by
  refine (Discerning.accept _).bind fun o => ?_
  split
  · exact conditional_discerning h hst
  refine (Discerning.accept _).bind fun o => ?_
  split
  · exact whileLoop_discerning h hst
  refine (Discerning.accept _).bind fun o => ?_
  split
  · exact (block_discerning hd).bind fun _ => .pure _
  refine (Discerning.accept _).bind fun o => ?_
  split
  · exact returned_discerning h
  · exact expressionStatement_discerning h

/-- A declaration tells them apart if everything it may consist of does. -/
theorem declarationOf_discerning (h : Discerning e) (hf : Discerning f) (hst : Discerning st) :
    Discerning (declarationOf e f st) := by
  refine (Discerning.accept _).bind fun o => ?_
  split
  · exact hf
  refine (Discerning.accept _).bind fun o => ?_
  split
  · exact localVariable_discerning h
  · exact hst

end Statements

/-- The recursive productions tell the two kinds apart however much room is left. -/
theorem rules_discerning (n : Nat) :
    Discerning (rules n).unary ∧ Discerning (rules n).expression ∧
      Discerning (rules n).function ∧ Discerning (rules n).statement := by
  induction n with
  | zero =>
    exact ⟨negation_discerning (.overrun _) (.overrun _), .overrun _, .overrun _, .overrun _⟩
  | succ n ih =>
    obtain ⟨hu, he, hf, hst⟩ := ih
    have hd := declarationOf_discerning he hf hst
    have he' := (assignment_discerning hu he).nested "expression"
    exact ⟨negation_discerning (hu.nested _) he', he', (functionRest_discerning hd).nested _,
      (statementRest_discerning he hst hd).nested _⟩

end Moonbridge.Parser
