import Moonbridge.Proofs.Grammar.Faultless

/-!
# The limits of a phrase

The errors of a phrase of the documented grammar are all about lists that are too long. The lists
of its tree are lists of the phrase, so that a phrase within the limit stands for a tree within it.
-/

namespace Moonbridge

namespace Parser

/-- The problems of a program that exceeds a limit. -/
def Problem.IsLimit : Problem → Prop
  | tooDeep _ => True
  | tooMany what => what = "arguments" ∨ what = "parameters"
  | expected _ | invalidTarget | other _ => False

/-- Errors that are all about limits. -/
def Limits (es : List ParseError) : Prop := ∀ e ∈ es, e.problem.IsLimit

@[simp] theorem limits_nil : Limits [] := by simp [Limits]

@[simp] theorem limits_append {es fs : List ParseError} :
    Limits (es ++ fs) ↔ Limits es ∧ Limits fs := by
  simp [Limits, or_imp, forall_and]

end Parser

mutual

/-- The number of items in the longest list of arguments in an expression. -/
def Expr.longestList : Expr → Nat
  | .binary left _ right => max left.longestList right.longestList
  | .grouping inner => inner.longestList
  | .literal _ | .name _ => 0
  | .unary _ operand => operand.longestList
  | .assign _ value => value.longestList
  | .call callee _ args => max args.length (max callee.longestList (Expr.longestListOfAll args))
  | .table entries => Entry.longestListOfAll entries
  | .index table key => max table.longestList key.longestList

/-- The number of items in the longest list of arguments in a table entry. -/
def Entry.longestList : Entry → Nat
  | .positional value => value.longestList
  | .keyed key value => max key.longestList value.longestList

/-- The number of items in the longest list of arguments in several expressions. -/
def Expr.longestListOfAll : List Expr → Nat
  | [] => 0
  | e :: es => max e.longestList (Expr.longestListOfAll es)

/-- The number of items in the longest list of arguments in several entries. -/
def Entry.longestListOfAll : List Entry → Nat
  | [] => 0
  | e :: es => max e.longestList (Entry.longestListOfAll es)

end

mutual

/-- The number of items in the longest list of arguments or parameters in a statement. -/
def Stmt.longestList : Stmt → Nat
  | .expression expr => expr.longestList
  | .function _ params body => max params.length (Stmt.longestListOfAll body)
  | .conditional cond thenBranch none => max cond.longestList thenBranch.longestList
  | .conditional cond thenBranch (some elseBranch) =>
    max (max cond.longestList thenBranch.longestList) elseBranch.longestList
  | .returned _ none | .declared _ none => 0
  | .returned _ (some value) | .declared _ (some value) => value.longestList
  | .loop cond body => max cond.longestList body.longestList
  | .block statements => Stmt.longestListOfAll statements

/-- The number of items in the longest list of arguments or parameters in several statements. -/
def Stmt.longestListOfAll : List Stmt → Nat
  | [] => 0
  | s :: ss => max s.longestList (Stmt.longestListOfAll ss)

end

namespace Grammar

open Moonbridge.Parser (Limits)

section Lists

/-- One more expression at the end counts like one more at the front. -/
theorem longestListOfAll_expressions (es : List Expr) (e : Expr) :
    Expr.longestListOfAll (es ++ [e]) = max (Expr.longestListOfAll es) e.longestList := by
  induction es with
  | nil => simp [Expr.longestListOfAll]
  | cons e' es ih => simp [Expr.longestListOfAll, ih, Nat.max_assoc]

theorem longestListOfAll_entries (es : List Entry) (e : Entry) :
    Entry.longestListOfAll (es ++ [e]) = max (Entry.longestListOfAll es) e.longestList := by
  induction es with
  | nil => simp [Entry.longestListOfAll]
  | cons e' es ih => simp [Entry.longestListOfAll, ih, Nat.max_assoc]

theorem longestListOfAll_statements (ss : List Stmt) (s : Stmt) :
    Stmt.longestListOfAll (ss ++ [s]) = max (Stmt.longestListOfAll ss) s.longestList := by
  induction ss with
  | nil => simp [Stmt.longestListOfAll]
  | cons s' ss ih => simp [Stmt.longestListOfAll, ih, Nat.max_assoc]

/-- The number of items in the longest list of arguments or parameters in what a phrase of a
category stands for. -/
def Category.longestList : (c : Category) → c.Tree → Nat
  | primary, (e : Expr) => e.longestList
  | call, (e : Expr) => e.longestList
  | tier _, (e : Expr) => e.longestList
  | expression, (e : Expr) => e.longestList
  | arguments, (es : List Expr) => max es.length (Expr.longestListOfAll es)
  | entry, (e : Entry) => e.longestList
  | fields, (es : List Entry) => Entry.longestListOfAll es
  | parameters, (ts : List Token) => ts.length
  | statement, (s : Stmt) => s.longestList
  | declaration, (s : Stmt) => s.longestList
  | declarations, (ss : List Stmt) => Stmt.longestListOfAll ss

end Lists

namespace Phrase

/-- A value that is dropped takes its lists with it. -/
theorem longestList_assignedTree (target value : Expr) :
    (assignedTree target value).longestList ≤ max target.longestList value.longestList := by
  unfold assignedTree
  cases target with
  | name token => exact Nat.le_max_right _ _
  | _ => exact Nat.le_max_left _ _

/-- The lists of a tree are lists of its phrase. -/
theorem longestList_tree_le {c : Category} (d : Phrase c) :
    c.longestList d.tree ≤ d.longestList := by
  induction d with
  | assigned t q e iht ihe =>
    have hle := longestList_assignedTree t.tree e.tree
    simp only [Category.longestList, tree, longestList] at *
    omega
  | _ =>
    simp only [Category.longestList, tree, longestList, Expr.longestList, Entry.longestList,
      Stmt.longestList, Expr.longestListOfAll, Entry.longestListOfAll, Stmt.longestListOfAll,
      longestListOfAll_expressions, longestListOfAll_entries, longestListOfAll_statements,
      List.length_append, List.length_cons, List.length_nil] at *
    omega

/-- The fault of a list that is too long is about a limit. -/
theorem limits_surplus {what : String} (hwhat : what = "arguments" ∨ what = "parameters")
    (count : Nat) (item : List Token) : Limits (surplus what count item) := by
  intro e he
  unfold surplus at he
  split at he
  · obtain ⟨t, -, rfl⟩ := List.mem_map.mp he
    exact hwhat
  · cases he

/-- The errors of a phrase of the documented grammar are about lists that are too long. -/
theorem limits_errors {c : Category} (d : Phrase c) (h : d.Documented) : Limits d.errors := by
  induction d with
  | moreArguments as c e iha ihe =>
    simp only [errors, Parser.limits_append]
    exact ⟨⟨iha h.1, limits_surplus (Or.inl rfl) _ _⟩, ihe h.2⟩
  | moreParameters ps c t ih =>
    simp only [errors, Parser.limits_append]
    exact ⟨ih ps.documented_parameters, limits_surplus (Or.inr rfl) _ _⟩
  | function k n o ps c ds d ihp ihd =>
    simp only [errors, Parser.limits_append]
    exact ⟨ihp ps.documented_parameters, ihd h⟩
  | assigned t q e iht ihe =>
    obtain ⟨⟨name, htokens⟩, he⟩ := h
    have hmistarget := (mistarget_eq_nil_iff t q.1).mpr ⟨name, htokens⟩
    rw [errors, (name_of_tokens t name.2 htokens).2.1, hmistarget]
    simpa using ihe he
  | _ =>
    simp only [errors, Documented, Parser.limits_append, Parser.limits_nil] at * <;> grind

end Phrase

end Grammar

end Moonbridge
