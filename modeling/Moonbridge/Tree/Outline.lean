import Moonbridge.Tree.Basic

/-!
# Outlines and the height of a tree

An outline is what remains of a tree when only the nesting of its nodes and the last token
of each node are kept; a table entry is a node, parameters and literal values are none. The
search for a node that stands too deep walks an outline with an explicit list of visits,
and the node it stops at is blamed on its own token or on the nearest one above it.
-/

namespace Moonbridge

/-- A node's last token, where it has one, and the outlines of its children in order. -/
inductive Outline
  | node (mark : Option Token) (children : List Outline)

namespace Outline

/-- The last token of the top node. -/
def mark : Outline → Option Token
  | node mark _ => mark

/-- The outlines below the top node. -/
def children : Outline → List Outline
  | node _ children => children

mutual

/-- The number of levels of an outline. -/
def height : Outline → Nat
  | node _ children => 1 + maxHeight children

/-- The number of levels of the tallest of several outlines. -/
def maxHeight : List Outline → Nat
  | [] => 0
  | o :: os => max o.height (maxHeight os)

end

mutual

/-- The number of nodes of an outline. -/
def size : Outline → Nat
  | node _ children => 1 + totalSize children

/-- The number of nodes of several outlines. -/
def totalSize : List Outline → Nat
  | [] => 0
  | o :: os => o.size + totalSize os

end

/-- Counting nodes is additive over concatenation. -/
theorem totalSize_append (os ps : List Outline) :
    totalSize (os ++ ps) = totalSize os + totalSize ps := by
  induction os with
  | nil => simp [totalSize]
  | cons o os ih => simp [totalSize, ih]; omega

/-- The order of outlines does not matter for the number of their nodes. -/
theorem totalSize_reverse (os : List Outline) : totalSize os.reverse = totalSize os := by
  induction os with
  | nil => rfl
  | cons o os ih => simp [totalSize_append, totalSize, ih]; omega

/-- A node still to be looked at: its outline, its level and the nearest token above it. -/
structure Visit where
  outline : Outline
  level : Nat
  near : Token

namespace Visit

/-- The token that a visit is blamed on. -/
def blamed (v : Visit) : Token := v.outline.mark.getD v.near

/-- The visits that a visit gives rise to, the last child first. -/
def below (v : Visit) : List Visit :=
  v.outline.children.reverse.map fun o => ⟨o, v.level + 1, v.blamed⟩

/-- A visit gives rise to visits of all its nodes but the top one. -/
theorem totalSize_below (v : Visit) :
    totalSize (v.below.map (·.outline)) + 1 = v.outline.size := by
  obtain ⟨⟨mark, inner⟩, level, near⟩ := v
  simp [below, Outline.children, size, Function.comp_def, totalSize_reverse]
  omega

end Visit

/-- The token blamed for the first visited node beyond a level, depth first. -/
def firstBeyond (limit : Nat) : List Visit → Option Token
  | [] => none
  | v :: pending =>
    if limit < v.level then some v.blamed else firstBeyond limit (v.below ++ pending)
termination_by visits => totalSize (visits.map (·.outline))
decreasing_by
  have := v.totalSize_below
  simp only [List.map_append, totalSize_append, List.map_cons, totalSize]
  omega

end Outline

mutual

/-- The outline of an expression. -/
def Expr.outline : Expr → Outline
  | .binary left op right => .node (some op.token) [left.outline, right.outline]
  | .grouping inner => .node none [inner.outline]
  | .literal _ => .node none []
  | .unary op operand => .node (some op) [operand.outline]
  | .name token => .node (some token) []
  | .assign target value => .node (some target) [value.outline]
  | .call callee paren args => .node (some paren) (callee.outline :: Expr.outlines args)
  | .table entries => .node none (Entry.outlines entries)
  | .index table key => .node none [table.outline, key.outline]

/-- The outline of a table entry. -/
def Entry.outline : Entry → Outline
  | .positional value => .node none [value.outline]
  | .keyed key value => .node none [key.outline, value.outline]

/-- The outlines of expressions in order. -/
def Expr.outlines : List Expr → List Outline
  | [] => []
  | e :: es => e.outline :: Expr.outlines es

/-- The outlines of table entries in order. -/
def Entry.outlines : List Entry → List Outline
  | [] => []
  | e :: es => e.outline :: Entry.outlines es

end

mutual

/-- The outline of a statement. -/
def Stmt.outline : Stmt → Outline
  | .expression expr => .node none [expr.outline]
  | .function name _ body => .node (some name) (Stmt.outlines body)
  | .conditional cond thenBranch none => .node none [cond.outline, thenBranch.outline]
  | .conditional cond thenBranch (some elseBranch) =>
    .node none [cond.outline, thenBranch.outline, elseBranch.outline]
  | .returned keyword value => .node (some keyword) (value.map Expr.outline).toList
  | .declared name initial => .node (some name) (initial.map Expr.outline).toList
  | .loop cond body => .node none [cond.outline, body.outline]
  | .block statements => .node none (Stmt.outlines statements)

/-- The outlines of statements in order. -/
def Stmt.outlines : List Stmt → List Outline
  | [] => []
  | s :: ss => s.outline :: Stmt.outlines ss

end

end Moonbridge
