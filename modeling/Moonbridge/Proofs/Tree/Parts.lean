import Moonbridge.Tree.Basic

/-!
# The parts of a tree

The parts of an expression are the expression itself and the parts of the expressions in it,
keys included. The parts of a statement are the statement itself and the statements within it,
and the expressions and the declared names of a statement are those of all its parts.
-/

namespace Moonbridge

mutual

/-- An expression and all expressions within it. -/
def Expr.parts : Expr → List Expr
  | .binary left op right => .binary left op right :: (left.parts ++ right.parts)
  | .grouping inner => .grouping inner :: inner.parts
  | .literal value => [.literal value]
  | .unary op operand => .unary op operand :: operand.parts
  | .name token => [.name token]
  | .assign target value => .assign target value :: value.parts
  | .call callee paren args => .call callee paren args :: (callee.parts ++ Expr.partsOfAll args)
  | .table entries => .table entries :: Entry.partsOfAll entries
  | .index table key => .index table key :: (table.parts ++ key.parts)

/-- All expressions within a table entry. -/
def Entry.parts : Entry → List Expr
  | .positional value => value.parts
  | .keyed key value => key.parts ++ value.parts

/-- Expressions and all expressions within them. -/
def Expr.partsOfAll : List Expr → List Expr
  | [] => []
  | e :: es => e.parts ++ Expr.partsOfAll es

/-- All expressions within table entries. -/
def Entry.partsOfAll : List Entry → List Expr
  | [] => []
  | e :: es => e.parts ++ Entry.partsOfAll es

end

mutual

/-- The expressions that stand in a statement or in a statement within it. -/
def Stmt.expressions : Stmt → List Expr
  | .expression expr => [expr]
  | .function _ _ body => Stmt.expressionsOfAll body
  | .conditional cond thenBranch none => cond :: thenBranch.expressions
  | .conditional cond thenBranch (some elseBranch) =>
    cond :: (thenBranch.expressions ++ elseBranch.expressions)
  | .returned _ value => value.toList
  | .declared _ initial => initial.toList
  | .loop cond body => cond :: body.expressions
  | .block statements => Stmt.expressionsOfAll statements

/-- The expressions that stand in statements. -/
def Stmt.expressionsOfAll : List Stmt → List Expr
  | [] => []
  | s :: ss => s.expressions ++ Stmt.expressionsOfAll ss

end

mutual

/-- A statement and all statements within it. -/
def Stmt.parts : Stmt → List Stmt
  | .expression expr => [.expression expr]
  | .function name params body => .function name params body :: Stmt.partsOfAll body
  | .conditional cond thenBranch none => .conditional cond thenBranch none :: thenBranch.parts
  | .conditional cond thenBranch (some elseBranch) =>
    .conditional cond thenBranch (some elseBranch) :: (thenBranch.parts ++ elseBranch.parts)
  | .returned keyword value => [.returned keyword value]
  | .declared name initial => [.declared name initial]
  | .loop cond body => .loop cond body :: body.parts
  | .block statements => .block statements :: Stmt.partsOfAll statements

/-- Statements and all statements within them. -/
def Stmt.partsOfAll : List Stmt → List Stmt
  | [] => []
  | s :: ss => s.parts ++ Stmt.partsOfAll ss

end

mutual

/-- The names that a statement or a statement within it declares: those of functions, of their
parameters and of local variables. -/
def Stmt.names : Stmt → List Token
  | .expression _ | .returned _ _ => []
  | .function name params body => name :: (params ++ Stmt.namesOfAll body)
  | .conditional _ thenBranch none => thenBranch.names
  | .conditional _ thenBranch (some elseBranch) => thenBranch.names ++ elseBranch.names
  | .declared name _ => [name]
  | .loop _ body => body.names
  | .block statements => Stmt.namesOfAll statements

/-- The names that statements declare. -/
def Stmt.namesOfAll : List Stmt → List Token
  | [] => []
  | s :: ss => s.names ++ Stmt.namesOfAll ss

end

/-- All expressions that occur in a program. -/
def Program.parts (program : Program) : List Expr :=
  (Stmt.expressionsOfAll program).flatMap Expr.parts

@[simp] theorem Expr.mem_parts_self (e : Expr) : e ∈ e.parts := by
  cases e <;> simp [Expr.parts]

/-- The parts of several expressions are those of each of them. -/
theorem Expr.mem_partsOfAll {p : Expr} {es : List Expr} :
    p ∈ Expr.partsOfAll es ↔ ∃ e ∈ es, p ∈ e.parts := by
  induction es with
  | nil => simp [Expr.partsOfAll]
  | cons e es ih => simp [Expr.partsOfAll, ih]

/-- The parts of several entries are those of each of them. -/
theorem Entry.mem_partsOfAll {p : Expr} {es : List Entry} :
    p ∈ Entry.partsOfAll es ↔ ∃ e ∈ es, p ∈ e.parts := by
  induction es with
  | nil => simp [Entry.partsOfAll]
  | cons e es ih => simp [Entry.partsOfAll, ih]

/-- What holds of the expressions in several statements holds in each of them. -/
theorem Stmt.forall_expressionsOfAll {P : Expr → Prop} {ss : List Stmt} :
    (∀ e ∈ Stmt.expressionsOfAll ss, P e) ↔ ∀ s ∈ ss, ∀ e ∈ s.expressions, P e := by
  induction ss with
  | nil => simp [Stmt.expressionsOfAll]
  | cons s ss ih => simp [Stmt.expressionsOfAll, or_imp, forall_and, ih]

/-- The names of joined statements are joined. -/
theorem Stmt.namesOfAll_append (ss ts : List Stmt) :
    Stmt.namesOfAll (ss ++ ts) = Stmt.namesOfAll ss ++ Stmt.namesOfAll ts := by
  induction ss with
  | nil => rfl
  | cons s ss ih => simp [Stmt.namesOfAll, ih]

/-- What holds of the names in several statements holds in each of them. -/
theorem Stmt.forall_namesOfAll {P : Token → Prop} {ss : List Stmt} :
    (∀ t ∈ Stmt.namesOfAll ss, P t) ↔ ∀ s ∈ ss, ∀ t ∈ s.names, P t := by
  induction ss with
  | nil => simp [Stmt.namesOfAll]
  | cons s ss ih => simp [Stmt.namesOfAll, or_imp, forall_and, ih]

/-- The parts of joined statements are joined. -/
theorem Stmt.partsOfAll_append (ss ts : List Stmt) :
    Stmt.partsOfAll (ss ++ ts) = Stmt.partsOfAll ss ++ Stmt.partsOfAll ts := by
  induction ss with
  | nil => rfl
  | cons s ss ih => simp [Stmt.partsOfAll, ih]

/-- The parts of several statements are those of each of them. -/
theorem Stmt.mem_partsOfAll {p : Stmt} {ss : List Stmt} :
    p ∈ Stmt.partsOfAll ss ↔ ∃ s ∈ ss, p ∈ s.parts := by
  induction ss with
  | nil => simp [Stmt.partsOfAll]
  | cons s ss ih => simp [Stmt.partsOfAll, ih]

mutual

/-- What stands within a part stands within the whole. -/
theorem Expr.parts_trans {p q : Expr} (hq : q ∈ p.parts) :
    ∀ {e : Expr}, p ∈ e.parts → q ∈ e.parts
  | .binary left op right, hp => by
    simp only [Expr.parts, List.mem_cons, List.mem_append] at hp
    rcases hp with rfl | hp | hp
    · exact hq
    · simp [Expr.parts, Expr.parts_trans hq hp]
    · simp [Expr.parts, Expr.parts_trans hq hp]
  | .grouping inner, hp => by
    simp only [Expr.parts, List.mem_cons] at hp
    rcases hp with rfl | hp
    · exact hq
    · simp [Expr.parts, Expr.parts_trans hq hp]
  | .literal value, hp => by
    simp only [Expr.parts, List.mem_singleton] at hp
    subst hp
    exact hq
  | .unary op operand, hp => by
    simp only [Expr.parts, List.mem_cons] at hp
    rcases hp with rfl | hp
    · exact hq
    · simp [Expr.parts, Expr.parts_trans hq hp]
  | .name token, hp => by
    simp only [Expr.parts, List.mem_singleton] at hp
    subst hp
    exact hq
  | .assign target value, hp => by
    simp only [Expr.parts, List.mem_cons] at hp
    rcases hp with rfl | hp
    · exact hq
    · simp [Expr.parts, Expr.parts_trans hq hp]
  | .call callee paren args, hp => by
    simp only [Expr.parts, List.mem_cons, List.mem_append] at hp
    rcases hp with rfl | hp | hp
    · exact hq
    · simp [Expr.parts, Expr.parts_trans hq hp]
    · simp [Expr.parts, Expr.partsOfAll_trans hq hp]
  | .table entries, hp => by
    simp only [Expr.parts, List.mem_cons] at hp
    rcases hp with rfl | hp
    · exact hq
    · simp [Expr.parts, Entry.partsOfAll_trans hq hp]
  | .index table key, hp => by
    simp only [Expr.parts, List.mem_cons, List.mem_append] at hp
    rcases hp with rfl | hp | hp
    · exact hq
    · simp [Expr.parts, Expr.parts_trans hq hp]
    · simp [Expr.parts, Expr.parts_trans hq hp]

/-- The parts of a part of an entry are parts of the entry. -/
theorem Entry.parts_trans {p q : Expr} (hq : q ∈ p.parts) :
    ∀ {e : Entry}, p ∈ e.parts → q ∈ e.parts
  | .positional value, hp => Expr.parts_trans hq (e := value) hp
  | .keyed key value, hp => by
    simp only [Entry.parts, List.mem_append] at hp ⊢
    exact hp.imp (Expr.parts_trans hq) (Expr.parts_trans hq)

/-- The parts of a part of several expressions are parts of them. -/
theorem Expr.partsOfAll_trans {p q : Expr} (hq : q ∈ p.parts) :
    ∀ {es : List Expr}, p ∈ Expr.partsOfAll es → q ∈ Expr.partsOfAll es
  | e :: es, hp => by
    simp only [Expr.partsOfAll, List.mem_append] at hp ⊢
    exact hp.imp (Expr.parts_trans hq) (Expr.partsOfAll_trans hq)

/-- The parts of a part of several entries are parts of them. -/
theorem Entry.partsOfAll_trans {p q : Expr} (hq : q ∈ p.parts) :
    ∀ {es : List Entry}, p ∈ Entry.partsOfAll es → q ∈ Entry.partsOfAll es
  | e :: es, hp => by
    simp only [Entry.partsOfAll, List.mem_append] at hp ⊢
    exact hp.imp (Entry.parts_trans hq) (Entry.partsOfAll_trans hq)

end

end Moonbridge
