import Moonbridge.Proofs.Parser.Completeness

/-!
# How deep the productions reach

The recursive productions are defined level by level, as many levels as may still be opened. That
number is no bound of its own: where no further level may be opened, a production fails before it
reaches the next one, so that productions with more levels run alike. The argument follows the
productions: each of them runs alike if the ones it refers to do.
-/

namespace Moonbridge.Parser

/-- Two productions that run alike wherever at most `n` levels may be opened. An answer leaves as
many levels open as before. -/
structure Alike {α : Type} (n : Nat) (p q : Parse α) : Prop where
  run_eq : ∀ s : State, maxNesting ≤ s.depth + n → p.run s = q.run s
  level : ∀ s a s', p.run s = .ok a s' → s'.depth = s.depth

namespace Alike

variable {α β : Type} {n : Nat} {p q : Parse α} {f g : α → Parse β}

/-- A production that follows the law runs like itself. -/
theorem ofRegular {m : α → α} {P : α → Prop} (h : Regular .alone m P p p) : Alike n p p where
  run_eq _ _ := rfl
  level _ _ _ hp := (h.ok hp).1

theorem pure (a : α) : Alike n (Pure.pure a) (Pure.pure a) where
  run_eq _ _ := rfl
  level s b s' h := by cases h; rfl

theorem fail (e : Failure) : Alike n (throw e : Parse α) (throw e) where
  run_eq _ _ := rfl
  level s a s' h := by cases h

/-- A sequence runs alike if its parts do. -/
theorem bind (hp : Alike n p q) (hf : ∀ a, Alike n (f a) (g a)) :
    Alike n (p >>= f) (q >>= g) where
  run_eq := by
    intro s hs
    rw [EStateM.run_bind, EStateM.run_bind, ← hp.run_eq s hs]
    cases hrun : p.run s with
    | error e s₁ => rfl
    | ok a s₁ =>
      have hlevel := hp.level s a s₁ hrun
      exact (hf a).run_eq s₁ (by rw [hlevel]; exact hs)
  level := by
    intro s b s' h
    obtain ⟨a, s₁, hrun, hrest⟩ := bind_eq_ok.mp h
    rw [(hf a).level s₁ b s' hrest, hp.level s a s₁ hrun]

/-- Loops run alike if their rounds do. -/
theorem rounds {round round' : α → Parse (Round α β)} (h : ∀ a, Alike n (round a) (round' a))
    (bound : List Token) (a : α) :
    Alike n (Parser.rounds round bound a) (Parser.rounds round' bound a) := by
  induction bound generalizing a with
  | nil =>
    refine (h a).bind fun r => ?_
    cases r with
    | again next => exact fail _
    | done answer => exact pure _
  | cons t bound ih =>
    refine (h a).bind fun r => ?_
    cases r with
    | again next => exact ih next
    | done answer => exact pure _

/-- A loop runs alike if its rounds do. -/
theorem repeated {round round' : α → Parse (Round α β)} (h : ∀ a, Alike n (round a) (round' a))
    (a : α) : Alike n (Parser.repeated round a) (Parser.repeated round' a) where
  run_eq s hs := (rounds h s.after a).run_eq s hs
  level s b s' hrun := (rounds h s.after a).level s b s' hrun

/-- A level around productions that run alike. -/
theorem nested (h : Alike n p q) (what : String) :
    Alike (n + 1) (Parser.nested what p) (Parser.nested what q) where
  run_eq := by
    intro s hs
    by_cases hroom : s.depth < maxNesting
    · have hinner := h.run_eq { s with depth := s.depth + 1 } (by simp only []; omega)
      rw [run_nested hroom, run_nested hroom, hinner]
    · rw [run_nested_full (by omega), run_nested_full (by omega)]
  level := by
    intro s a s' hrun
    by_cases hroom : s.depth < maxNesting
    · rw [run_nested hroom] at hrun
      cases hp : p.run { s with depth := s.depth + 1 } with
      | error e s₁ => rw [hp] at hrun; cases hrun
      | ok b s₁ =>
        rw [hp] at hrun
        cases hrun
        have hlevel := h.level _ _ s₁ hp
        simp only [hlevel]
        omega
    · rw [run_nested_full (by omega)] at hrun
      exact ((overrun_regular (x := .alone) (m := id) (P := fun _ => False) what).ok hrun).1

/-- Where no level may be opened, whatever stands inside the next one is not reached. -/
theorem overrun (what : String) (q : Parse α) :
    Alike 0 (Parser.overrun what : Parse α) (Parser.nested what q) where
  run_eq := by
    intro s hs
    rw [run_nested_full (by omega)]
  level s a s' hrun :=
    ((overrun_regular (x := .alone) (m := id) (P := fun _ => False) what).ok hrun).1

section Cursor

theorem current : Alike n Parser.current Parser.current := ofRegular current_regular

theorem atEnd : Alike n Parser.atEnd Parser.atEnd := ofRegular atEnd_regular

theorem looksAt (k : Kind) : Alike n (Parser.looksAt k) (Parser.looksAt k) :=
  ofRegular (looksAt_regular k)

theorem accept {k : Kind} (hk : k ≠ .endOfInput) : Alike n (Parser.accept k) (Parser.accept k) :=
  ofRegular (accept_regular hk)

theorem expect {k : Kind} {problem : Problem} (hk : k ≠ .endOfInput) :
    Alike n (Parser.expect k problem) (Parser.expect k problem) :=
  ofRegular (expect_regular hk)

theorem advance : Alike n Parser.advance Parser.advance where
  run_eq _ _ := rfl
  level := by
    intro s t s' h
    obtain ⟨u, s₁, hu, hrest⟩ := bind_eq_ok.mp h
    obtain ⟨rfl, rest, hs⟩ := current_ok hu
    cases hend : u.isEnd with
    | true =>
      rw [advance_end hs hend] at h
      cases h
      rfl
    | false =>
      rw [advance_cons hs hend] at h
      cases h
      rfl

theorem peek (offset : Int) : Alike n (Parser.peek offset) (Parser.peek offset) where
  run_eq _ _ := rfl
  level s t s' h := by rw [peek_ok h]

theorem report (t : Token) (problem : Problem) :
    Alike n (Parser.report t problem) (Parser.report t problem) where
  run_eq _ _ := rfl
  level s a s' h := by cases h; rfl

end Cursor

end Alike

section Expressions

variable {n : Nat} {e e' u u' d d' : Parse Expr}

/-- Lists run alike if their items do. -/
theorem commaSeparated_alike {α : Type} {item item' : Parse α} (h : Alike n item item')
    (what : String) : Alike n (commaSeparated item what) (commaSeparated item' what) := by
  rw [commaSeparated_eq, commaSeparated_eq]
  refine h.bind fun first => .repeated (fun items => ?_) _
  refine (Alike.accept (by decide)).bind fun o => ?_
  cases o with
  | none => exact .pure _
  | some comma =>
    simp only []
    split
    · exact Alike.current.bind fun t => (Alike.report t _).bind fun _ => h.bind fun _ => .pure _
    · exact h.bind fun _ => .pure _

/-- Chains of operators run alike if their operands do. -/
theorem chain_alike (ops : List BinaryOp) (h : Alike n e e') :
    Alike n (chain ops e) (chain ops e') := by
  rw [chain_eq, chain_eq]
  refine h.bind fun first => .repeated (fun left => ?_) _
  refine (Alike.ofRegular (acceptOperator_regular ops)).bind fun o => ?_
  cases o with
  | none => exact .pure _
  | some op => exact h.bind fun _ => .pure _

/-- Tiers of operators run alike if unary expressions do. -/
theorem tier_alike (h : Alike n u u') (t : Nat) : Alike n (tier u t) (tier u' t) := by
  induction t with
  | zero => exact h
  | succ t ih => exact chain_alike (tierOps t) ih

/-- Table entries run alike if expressions do. -/
theorem entry_alike (h : Alike n e e') : Alike n (entry e) (entry e') := by
  unfold entry
  simp only [discard_bind]
  refine (Alike.accept (by decide)).bind fun o => ?_
  split
  · refine h.bind fun key => (Alike.expect (by decide)).bind fun _ => ?_
    exact (Alike.expect (by decide)).bind fun _ => h.bind fun _ => .pure _
  simp only [pure_bind]
  have hkeyed : Alike n
      (advance >>= fun name => advance >>= fun _ => e >>= fun value =>
        pure (Entry.keyed (.literal (.text name.lexeme)) value))
      (advance >>= fun name => advance >>= fun _ => e' >>= fun value =>
        pure (Entry.keyed (.literal (.text name.lexeme)) value)) :=
    Alike.advance.bind fun _ => Alike.advance.bind fun _ => h.bind fun _ => .pure _
  have hpositional : Alike n (positionalEntry e) (positionalEntry e') := h.bind fun _ => .pure _
  refine (Alike.looksAt _).bind fun named => ?_
  split
  · refine (Alike.peek 1).bind fun next => ?_
    split
    · exact hkeyed
    · exact hpositional
  · exact hpositional

/-- Tables run alike if expressions do. -/
theorem table_alike (h : Alike n e e') : Alike n (table e) (table e') := by
  rw [table_eq, table_eq]
  refine (Alike.repeated (fun entries => ?_) _).bind fun entries =>
    (Alike.expect (by decide)).bind fun _ => .pure _
  refine (Alike.looksAt _).bind fun closed => ?_
  split
  · exact .pure _
  · refine (entry_alike h).bind fun next => (Alike.accept (by decide)).bind fun comma => ?_
    split <;> exact .pure _

/-- Primary expressions run alike if the expressions within them do. -/
theorem primary_alike (h : Alike n e e') : Alike n (primary e) (primary e') := by
  unfold primary
  simp only [discard_bind]
  refine Alike.current.bind fun t => ?_
  split
  · exact Alike.advance.bind fun _ => .pure _
  · exact Alike.advance.bind fun _ => .pure _
  · exact Alike.advance.bind fun _ => .pure _
  · exact Alike.advance.bind fun _ => .pure _
  · exact Alike.advance.bind fun _ => table_alike h
  · refine Alike.advance.bind fun _ => h.bind fun inner => ?_
    exact (Alike.expect (by decide)).bind fun _ => .pure _
  · exact .fail _

/-- Calls run alike if the expressions within them do. -/
theorem call_alike (h : Alike n e e') : Alike n (call e) (call e') := by
  rw [call_eq, call_eq]
  refine (primary_alike h).bind fun first => .repeated (fun callee => ?_) _
  refine (Alike.accept (by decide)).bind fun o => ?_
  split
  · refine Alike.bind ?_ fun _ => .pure _
    refine (Alike.looksAt _).bind fun none => ?_
    simp only [pure_bind]
    split
    · exact (Alike.expect (by decide)).bind fun _ => .pure _
    · refine (commaSeparated_alike h _).bind fun args => ?_
      exact (Alike.expect (by decide)).bind fun _ => .pure _
  refine (Alike.accept (by decide)).bind fun o => ?_
  split
  · exact (Alike.expect (by decide)).bind fun _ => .pure _
  refine (Alike.accept (by decide)).bind fun o => ?_
  split
  · exact h.bind fun key => (Alike.expect (by decide)).bind fun _ => .pure _
  · exact .pure _

/-- Negations run alike if what they negate does. -/
theorem negation_alike (hd : Alike n d d') (h : Alike n e e') :
    Alike n (negation d e) (negation d' e') := by
  refine (Alike.accept (by decide)).bind fun o => ?_
  cases o with
  | none => exact call_alike h
  | some minus => exact hd.bind fun _ => .pure _

/-- Assignments run alike if their targets and their values do. -/
theorem assignment_alike (hu : Alike n u u') (hd : Alike n d d') :
    Alike n (assignment u d) (assignment u' d') := by
  rw [assignment_eq, assignment_eq]
  refine (tier_alike hu 6).bind fun target => (Alike.accept (by decide)).bind fun o => ?_
  cases o with
  | none => exact .pure _
  | some equals =>
    refine hd.bind fun value => ?_
    split
    · exact .pure _
    · exact (Alike.report _ _).bind fun _ => .pure _

end Expressions

section Statements

variable {n : Nat} {e e' : Parse Expr} {st st' d d' f f' : Parse Stmt}

/-- Bodies run alike if their declarations do. -/
theorem declarationsUntil_alike (h : Alike n d d') (stop : Kind) :
    Alike n (declarationsUntil d stop) (declarationsUntil d' stop) := by
  rw [declarationsUntil_eq, declarationsUntil_eq]
  refine .repeated (fun stmts => ?_) _
  refine (Alike.looksAt _).bind fun stopped => Alike.atEnd.bind fun ended => ?_
  split
  · exact .pure _
  · exact h.bind fun _ => .pure _

/-- Functions run alike if their declarations do. -/
theorem functionRest_alike (h : Alike n d d') : Alike n (functionRest d) (functionRest d') := by
  unfold functionRest
  simp only [discard_bind, pure_bind]
  refine (Alike.expect (by decide)).bind fun name => (Alike.expect (by decide)).bind fun _ => ?_
  have hrest : ∀ params : List Token,
      Alike n (functionBody d name params) (functionBody d' name params) := fun params =>
    (Alike.expect (by decide)).bind fun _ => (declarationsUntil_alike h _).bind fun body =>
      (Alike.expect (by decide)).bind fun _ => .pure _
  refine (Alike.looksAt _).bind fun none => ?_
  split
  · exact hrest []
  · exact (commaSeparated_alike (.expect (by decide)) _).bind hrest

/-- Local variables run alike if their values do. -/
theorem localVariable_alike (h : Alike n e e') :
    Alike n (localVariable e) (localVariable e') := by
  unfold localVariable
  simp only [discard_bind, pure_bind]
  refine (Alike.expect (by decide)).bind fun name => (Alike.accept (by decide)).bind fun o => ?_
  split
  · exact h.bind fun _ => (Alike.expect (by decide)).bind fun _ => .pure _
  · exact (Alike.expect (by decide)).bind fun _ => .pure _

/-- Conditionals run alike if their conditions and their branches do. -/
theorem conditional_alike (h : Alike n e e') (hst : Alike n st st') :
    Alike n (conditional e st) (conditional e' st') := by
  unfold conditional
  simp only [discard_bind, pure_bind]
  refine h.bind fun cond => (Alike.expect (by decide)).bind fun _ => hst.bind fun body => ?_
  refine (Alike.accept (by decide)).bind fun o => ?_
  split
  · exact hst.bind fun _ => (Alike.expect (by decide)).bind fun _ => .pure _
  · exact (Alike.expect (by decide)).bind fun _ => .pure _

/-- Loops run alike if their conditions and their bodies do. -/
theorem whileLoop_alike (h : Alike n e e') (hst : Alike n st st') :
    Alike n (whileLoop e st) (whileLoop e' st') := by
  unfold whileLoop
  simp only [discard_bind]
  refine h.bind fun cond => (Alike.expect (by decide)).bind fun _ => hst.bind fun body => ?_
  exact (Alike.expect (by decide)).bind fun _ => .pure _

/-- Statements run alike if all that they may consist of does. -/
theorem statementRest_alike (h : Alike n e e') (hst : Alike n st st') (hd : Alike n d d') :
    Alike n (statementRest e st d) (statementRest e' st' d') := by
  rw [statementRest_eq, statementRest_eq]
  refine (Alike.accept (by decide)).bind fun o => ?_
  split
  · exact conditional_alike h hst
  refine (Alike.accept (by decide)).bind fun o => ?_
  split
  · exact whileLoop_alike h hst
  refine (Alike.accept (by decide)).bind fun o => ?_
  split
  · unfold block
    simp only [discard_bind]
    refine Alike.bind ?_ fun _ => .pure _
    exact (declarationsUntil_alike hd _).bind fun _ =>
      (Alike.expect (by decide)).bind fun _ => .pure _
  refine (Alike.accept (by decide)).bind fun o => ?_
  cases o with
  | none =>
    simp only [Option.elim_none]
    unfold expressionStatement
    simp only [discard_bind]
    exact h.bind fun _ => (Alike.expect (by decide)).bind fun _ => .pure _
  | some keyword =>
    simp only [Option.elim_some]
    unfold returnedBy
    refine (Alike.looksAt _).bind fun none => ?_
    simp only [pure_bind]
    split
    · exact (Alike.expect (by decide)).bind fun _ => .pure _
    · exact h.bind fun _ => (Alike.expect (by decide)).bind fun _ => .pure _

/-- Declarations run alike if all that they may consist of does. -/
theorem declarationOf_alike (h : Alike n e e') (hf : Alike n f f') (hst : Alike n st st') :
    Alike n (declarationOf e f st) (declarationOf e' f' st') := by
  unfold declarationOf
  refine (Alike.accept (by decide)).bind fun o => ?_
  split
  · exact hf
  refine (Alike.accept (by decide)).bind fun o => ?_
  split
  · exact localVariable_alike h
  · exact hst

end Statements

/-- The recursive productions run alike with more levels. -/
theorem rules_alike {n m : Nat} (h : n ≤ m) :
    Alike n (rules n).unary (rules m).unary ∧ Alike n (rules n).expression (rules m).expression ∧
      Alike n (rules n).function (rules m).function ∧
        Alike n (rules n).statement (rules m).statement := by
  induction n generalizing m with
  | zero =>
    cases m with
    | zero =>
      obtain ⟨hu, he, hf, hst⟩ := rules_regular .alone 0
      exact ⟨.ofRegular hu, .ofRegular he, .ofRegular hf, .ofRegular hst⟩
    | succ m =>
      exact ⟨negation_alike (.overrun _ _) (.overrun _ _), .overrun _ _, .overrun _ _,
        .overrun _ _⟩
  | succ n ih =>
    cases m with
    | zero => omega
    | succ m =>
      obtain ⟨hu, he, hf, hst⟩ := ih (Nat.le_of_succ_le_succ h)
      have hd := declarationOf_alike he hf hst
      have he' := (assignment_alike hu he).nested "expression"
      exact ⟨negation_alike (hu.nested _) he', he', (functionRest_alike hd).nested _,
        (statementRest_alike he hst hd).nested _⟩

/-- The number of levels that may still be opened is all that a declaration needs. -/
theorem declaration_room {s : State} {n : Nat} (h : s.room ≤ n) :
    (rules n).declaration.run s = (rules s.room).declaration.run s := by
  obtain ⟨-, he, hf, hst⟩ := rules_alike h
  have hroom : maxNesting ≤ s.depth + s.room := by
    unfold State.room
    omega
  exact ((declarationOf_alike he hf hst).run_eq s hroom).symm

end Moonbridge.Parser
