import Moonbridge.Node.Check
import Moonbridge.Node.Dump
import Moonbridge.Proofs.Parser.Run

/-!
# Programs as untyped trees

A program has no defect as an untyped tree: every node stands where the check looks for one of its
type, and every binary node has an operator of the language. So checking the untyped tree of a
program gives the program back, and the code and the dump of the untyped tree are those of the
program.
-/

namespace Moonbridge

section Checks

/-- The token of an operator is checked as that operator. -/
theorem Operator.check_token (op : Operator) : Operator.check op.token = .ok op := by
  rw [Operator.check, Parser.ofToken?_token]

/-- An entry whose key is not null is checked as one with a key. -/
theorem NodeEntry.check_of_ne_null {key : Node} (h : key ≠ .null) (value : Node) :
    (NodeEntry.mk key value).check = (do
      let key ← key.checkExpr
      let value ← value.checkExpr
      return .keyed key value) := by
  cases key with
  | null => exact absurd rfl h
  | _ => rfl

/-- An expression that is present is checked. -/
theorem Node.checkOption_of_ne_null {node : Node} (h : node ≠ .null) :
    node.checkOption = (do return some (← node.checkExpr)) := by
  cases node with
  | null => exact absurd rfl h
  | _ => rfl

/-- A second branch that is present is checked behind the first one. -/
theorem Node.checkStmt_of_ne_null {elseBranch : Node} (h : elseBranch ≠ .null)
    (cond thenBranch : Node) : (Node.conditional cond thenBranch elseBranch).checkStmt = (do
      let cond ← cond.checkExpr
      let thenBranch ← thenBranch.checkStmt
      let elseBranch ← elseBranch.checkStmt
      return .conditional cond thenBranch (some elseBranch)) := by
  cases elseBranch with
  | null => exact absurd rfl h
  | _ => rfl

/-- An expression is never null, so that a part that is there is told from an absent one. -/
theorem Expr.node_ne_null (e : Expr) : e.node ≠ .null := by
  cases e <;> simp [Expr.node]

/-- The untyped tree of a statement is never null. -/
theorem Stmt.node_ne_null (s : Stmt) : s.node ≠ .null := by
  cases s with
  | conditional cond thenBranch elseBranch => cases elseBranch <;> simp [Stmt.node]
  | _ => simp [Stmt.node]

mutual

/-- Checking the untyped tree of an expression gives the expression back. -/
theorem Expr.checkExpr_node : ∀ e : Expr, e.node.checkExpr = .ok e
  | .binary left op right => by
    rw [Expr.node, Node.checkExpr, left.checkExpr_node, op.check_token, right.checkExpr_node]
    rfl
  | .grouping inner => by
    rw [Expr.node, Node.checkExpr, inner.checkExpr_node]
    rfl
  | .literal value => rfl
  | .unary op operand => by
    rw [Expr.node, Node.checkExpr, operand.checkExpr_node]
    rfl
  | .name token => rfl
  | .assign target value => by
    rw [Expr.node, Node.checkExpr, value.checkExpr_node]
    rfl
  | .call callee paren args => by
    rw [Expr.node, Node.checkExpr, callee.checkExpr_node, Expr.checkExprs_nodes args]
    rfl
  | .table entries => by
    rw [Expr.node, Node.checkExpr, Entry.checkEntries_nodes entries]
    rfl
  | .index table key => by
    rw [Expr.node, Node.checkExpr, table.checkExpr_node, key.checkExpr_node]
    rfl

/-- Checking the untyped entry of a table entry gives the entry back. -/
theorem Entry.check_node : ∀ e : Entry, e.node.check = .ok e
  | .positional value => by
    rw [Entry.node, NodeEntry.check, value.checkExpr_node]
    rfl
  | .keyed key value => by
    rw [Entry.node, NodeEntry.check_of_ne_null key.node_ne_null, key.checkExpr_node,
      value.checkExpr_node]
    rfl

/-- Checking the untyped trees of expressions gives the expressions back, in order. -/
theorem Expr.checkExprs_nodes : ∀ es : List Expr, Node.checkExprs (Expr.nodes es) = .ok es
  | [] => rfl
  | e :: es => by
    rw [Expr.nodes, Node.checkExprs, e.checkExpr_node, Expr.checkExprs_nodes es]
    rfl

/-- Checking the untyped entries of table entries gives the entries back, in order. -/
theorem Entry.checkEntries_nodes :
    ∀ es : List Entry, Node.checkEntries (Entry.nodes es) = .ok es
  | [] => rfl
  | e :: es => by
    rw [Entry.nodes, Node.checkEntries, e.check_node, Entry.checkEntries_nodes es]
    rfl

end

/-- Checking gives an absent expression back as absent, and one that is present as itself. -/
theorem Expr.checkOption_node (o : Option Expr) : (Expr.optionNode o).checkOption = .ok o := by
  cases o with
  | none => rfl
  | some e =>
    rw [Expr.optionNode, Node.checkOption_of_ne_null e.node_ne_null, e.checkExpr_node]
    rfl

mutual

/-- Checking the untyped tree of a statement gives the statement back. -/
theorem Stmt.checkStmt_node : ∀ s : Stmt, s.node.checkStmt = .ok s
  | .expression expr => by
    rw [Stmt.node, Node.checkStmt, expr.checkExpr_node]
    rfl
  | .function name params body => by
    rw [Stmt.node, Node.checkStmt, Stmt.checkStmts_nodes body]
    rfl
  | .conditional cond thenBranch none => by
    rw [Stmt.node, Node.checkStmt, cond.checkExpr_node, thenBranch.checkStmt_node]
    rfl
  | .conditional cond thenBranch (some elseBranch) => by
    rw [Stmt.node, Node.checkStmt_of_ne_null elseBranch.node_ne_null, cond.checkExpr_node,
      thenBranch.checkStmt_node, elseBranch.checkStmt_node]
    rfl
  | .returned keyword value => by
    rw [Stmt.node, Node.checkStmt, Expr.checkOption_node]
    rfl
  | .declared name initial => by
    rw [Stmt.node, Node.checkStmt, Expr.checkOption_node]
    rfl
  | .loop cond body => by
    rw [Stmt.node, Node.checkStmt, cond.checkExpr_node, body.checkStmt_node]
    rfl
  | .block body => by
    rw [Stmt.node, Node.checkStmt, Stmt.checkStmts_nodes body]
    rfl

/-- A program has no defect. -/
theorem Stmt.checkStmts_nodes : ∀ ss : List Stmt, Node.checkStmts (Stmt.nodes ss) = .ok ss
  | [] => rfl
  | s :: ss => by
    rw [Stmt.nodes, Node.checkStmts, s.checkStmt_node, Stmt.checkStmts_nodes ss]
    rfl

end

/-- The untyped tree of a program has the code of the program. -/
theorem javaScript_nodes (program : Program) :
    Node.javaScript (Stmt.nodes program) = .ok (JavaScript.program program) := by
  rw [Node.javaScript, Stmt.checkStmts_nodes]
  rfl

end Checks

section Dumps

mutual

/-- The untyped tree of an expression has the dump of that expression. -/
theorem Expr.dump_node : ∀ e : Expr, e.node.dump = .ok e.dump
  | .binary left op right => by
    rw [Expr.node, Node.dump, left.dump_node, right.dump_node]
    rfl
  | .grouping inner => by
    rw [Expr.node, Node.dump, inner.dump_node]
    rfl
  | .literal value => rfl
  | .unary op operand => by
    rw [Expr.node, Node.dump, operand.dump_node]
    rfl
  | .name token => rfl
  | .assign target value => by
    rw [Expr.node, Node.dump, value.dump_node]
    rfl
  | .call callee paren args => by
    rw [Expr.node, Node.dump, callee.dump_node, Expr.dumps_nodes args]
    rfl
  | .table entries => by
    rw [Expr.node, Node.dump, Entry.dumps_nodes entries]
    rfl
  | .index table key => by
    rw [Expr.node, Node.dump, table.dump_node, key.dump_node]
    rfl

/-- The untyped trees of expressions have the dumps of those expressions. -/
theorem Expr.dumps_nodes : ∀ es : List Expr, Node.dumps (Expr.nodes es) = .ok (Expr.dumps es)
  | [] => rfl
  | e :: es => by
    rw [Expr.nodes, Node.dumps, e.dump_node, Expr.dumps_nodes es]
    rfl

/-- The untyped entries of table entries have the dumps of those entries. -/
theorem Entry.dumps_nodes :
    ∀ es : List Entry, NodeEntry.dumps (Entry.nodes es) = .ok (Entry.dumps es)
  | [] => rfl
  | .positional value :: es => by
    rw [Entry.nodes, Entry.node, NodeEntry.dumps, value.dump_node, Entry.dumps_nodes es]
    rfl
  | .keyed key value :: es => by
    rw [Entry.nodes, Entry.node, NodeEntry.dumps, key.dump_node, value.dump_node,
      Entry.dumps_nodes es]
    rfl

end

/-- An absent expression has the dump of nothing, and one that is present its own. -/
theorem Expr.dump_optionNode (o : Option Expr) :
    (Expr.optionNode o).dump = .ok (.ofOption (o.map Expr.dump)) := by
  cases o with
  | none => rfl
  | some e => exact e.dump_node

mutual

/-- The untyped tree of a statement has the dump of that statement. -/
theorem Stmt.dump_node : ∀ s : Stmt, s.node.dump = .ok s.dump
  | .expression expr => by
    rw [Stmt.node, Node.dump, expr.dump_node]
    rfl
  | .function name params body => by
    rw [Stmt.node, Node.dump, Stmt.dumps_nodes body]
    rfl
  | .conditional cond thenBranch none => by
    rw [Stmt.node, Node.dump, cond.dump_node, thenBranch.dump_node]
    rfl
  | .conditional cond thenBranch (some elseBranch) => by
    rw [Stmt.node, Node.dump, cond.dump_node, thenBranch.dump_node, elseBranch.dump_node]
    rfl
  | .returned keyword value => by
    rw [Stmt.node, Node.dump, Expr.dump_optionNode]
    rfl
  | .declared name initial => by
    rw [Stmt.node, Node.dump, Expr.dump_optionNode]
    rfl
  | .loop cond body => by
    rw [Stmt.node, Node.dump, cond.dump_node, body.dump_node]
    rfl
  | .block body => by
    rw [Stmt.node, Node.dump, Stmt.dumps_nodes body]
    rfl

/-- The untyped trees of statements have the dumps of those statements. -/
theorem Stmt.dumps_nodes : ∀ ss : List Stmt, Node.dumps (Stmt.nodes ss) = .ok (Stmt.dumps ss)
  | [] => rfl
  | s :: ss => by
    rw [Stmt.nodes, Node.dumps, s.dump_node, Stmt.dumps_nodes ss]
    rfl

end

/-- Statements are dumped one by one. -/
theorem Stmt.dumps_eq_map (ss : List Stmt) : Stmt.dumps ss = ss.map Stmt.dump := by
  induction ss with
  | nil => rfl
  | cons s ss ih => rw [Stmt.dumps, ih, List.map_cons]

/-- The untyped tree of a program has the dump of the program. -/
theorem dumpProgram_nodes (program : Program) :
    Node.dumpProgram (Stmt.nodes program) = .ok (dumpProgram program) := by
  rw [Node.dumpProgram, Stmt.dumps_nodes, dumpProgram, ← Stmt.dumps_eq_map]
  rfl

end Dumps

end Moonbridge
