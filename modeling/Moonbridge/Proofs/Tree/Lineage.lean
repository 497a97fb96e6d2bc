import Moonbridge.Proofs.Tree.Height

/-!
# The nodes of a tree and their lineages

The nodes of a tree are its statements, expressions and table entries. The lineage of a node leads
from the node up to the top of the tree, so that its length is the level of the node, and a node is
blamed on the nearest token of its lineage. The search with a list of visits keeps to lineages: each
visit stands for the lineage of a node, at the level and with the token that belong to it. So the
search agrees with the height that is defined by recursion over the tree, and it ends after no more
rounds than there are nodes.
-/

namespace Moonbridge

/-- A node of a tree. -/
inductive TreeNode
  | statement (stmt : Stmt)
  | expression (expr : Expr)
  | entry (item : Entry)

namespace TreeNode

/-- The last token that a node holds by itself. The parameters of a function belong to a list. -/
def token? : TreeNode → Option Token
  | expression (.binary _ op _) => some op.token
  | expression (.unary op _) => some op
  | expression (.name token) => some token
  | expression (.assign target _) => some target
  | expression (.call _ paren _) => some paren
  | statement (.function name _ _) => some name
  | statement (.returned keyword _) => some keyword
  | statement (.declared name _) => some name
  | _ => none

/-- The nodes right below a node, in order. -/
def children : TreeNode → List TreeNode
  | expression (.binary left _ right) => [expression left, expression right]
  | expression (.grouping inner) => [expression inner]
  | expression (.literal _) | expression (.name _) => []
  | expression (.unary _ operand) => [expression operand]
  | expression (.assign _ value) => [expression value]
  | expression (.call callee _ args) => expression callee :: args.map expression
  | expression (.table entries) => entries.map entry
  | expression (.index table key) => [expression table, expression key]
  | entry (.positional value) => [expression value]
  | entry (.keyed key value) => [expression key, expression value]
  | statement (.expression expr) => [expression expr]
  | statement (.function _ _ body) => body.map statement
  | statement (.conditional cond thenBranch elseBranch) =>
    expression cond :: statement thenBranch :: (elseBranch.map statement).toList
  | statement (.returned _ value) => (value.map expression).toList
  | statement (.declared _ initial) => (initial.map expression).toList
  | statement (.loop cond body) => [expression cond, statement body]
  | statement (.block body) => body.map statement

/-- What stands right below a node is smaller. -/
theorem sizeOf_lt_of_mem {n c : TreeNode} (h : c ∈ n.children) : sizeOf c < sizeOf n := by
  have hall : ∀ (ss : List Stmt), c ∈ ss.map statement → sizeOf c < 1 + (1 + sizeOf ss) := by
    intro ss h
    obtain ⟨s, hs, rfl⟩ := List.mem_map.mp h
    have := List.sizeOf_lt_of_mem hs
    simp only [statement.sizeOf_spec]
    omega
  cases n with
  | expression e =>
    cases e with
    | call callee paren args =>
      rcases List.mem_cons.mp h with rfl | h
      · simp only [expression.sizeOf_spec, Expr.call.sizeOf_spec]
        omega
      · obtain ⟨arg, harg, rfl⟩ := List.mem_map.mp h
        have := List.sizeOf_lt_of_mem harg
        simp only [expression.sizeOf_spec, Expr.call.sizeOf_spec]
        omega
    | table entries =>
      obtain ⟨e, he, rfl⟩ := List.mem_map.mp h
      have := List.sizeOf_lt_of_mem he
      simp only [expression.sizeOf_spec, entry.sizeOf_spec, Expr.table.sizeOf_spec]
      omega
    | _ => simp only [children, List.mem_cons, List.not_mem_nil] at h <;> grind
  | entry e => cases e <;> simp only [children, List.mem_cons, List.not_mem_nil] at h <;> grind
  | statement s =>
    cases s with
    | function name params body =>
      have := hall body h
      simp only [statement.sizeOf_spec, Stmt.function.sizeOf_spec]
      omega
    | block body =>
      have := hall body h
      simp only [statement.sizeOf_spec, Stmt.block.sizeOf_spec]
      omega
    | _ =>
      simp only [children, List.mem_cons, List.not_mem_nil, Option.mem_toList,
        Option.map_eq_some_iff] at h
      grind

/-- The number of levels of the tree below a node, that of the node included: one if there are no
nodes right below it, and else one more than the tallest of them has. -/
def height (n : TreeNode) : Nat := 1 + (n.children.attach.map fun c => c.1.height).foldr max 0
termination_by sizeOf n
decreasing_by exact sizeOf_lt_of_mem c.2

/-- A node is one level higher than the highest of its children. -/
theorem height_eq (n : TreeNode) : n.height = 1 + (n.children.map height).foldr max 0 := by
  rw [height, List.attach_map_val (f := height)]

section Outlines

/-- The outlines of expressions are taken one by one. -/
theorem exprOutlines_eq_map (es : List Expr) : Expr.outlines es = es.map Expr.outline := by
  induction es with
  | nil => rfl
  | cons e es ih => rw [Expr.outlines, ih, List.map_cons]

/-- The outlines of entries are taken one by one. -/
theorem entryOutlines_eq_map (es : List Entry) : Entry.outlines es = es.map Entry.outline := by
  induction es with
  | nil => rfl
  | cons e es ih => rw [Entry.outlines, ih, List.map_cons]

/-- The outlines of statements are taken one by one. -/
theorem stmtOutlines_eq_map (ss : List Stmt) : Stmt.outlines ss = ss.map Stmt.outline := by
  induction ss with
  | nil => rfl
  | cons s ss ih => rw [Stmt.outlines, ih, List.map_cons]

/-- The outline of the tree below a node. -/
def outline : TreeNode → Outline
  | statement stmt => stmt.outline
  | expression expr => expr.outline
  | entry item => item.outline

/-- An outline keeps the tokens of the nodes and what stands below what. -/
theorem outline_eq (n : TreeNode) : n.outline = .node n.token? (n.children.map outline) := by
  cases n with
  | statement s =>
    cases s with
    | conditional cond thenBranch elseBranch => cases elseBranch <;> rfl
    | returned keyword value => cases value <;> rfl
    | declared name initial => cases initial <;> rfl
    | function name params body =>
      simp [outline, Stmt.outline, stmtOutlines_eq_map, token?, children, Function.comp_def]
    | block body =>
      simp [outline, Stmt.outline, stmtOutlines_eq_map, token?, children, Function.comp_def]
    | _ => rfl
  | expression e =>
    cases e with
    | call callee paren args =>
      simp [outline, Expr.outline, exprOutlines_eq_map, token?, children, Function.comp_def]
    | table entries =>
      simp [outline, Expr.outline, entryOutlines_eq_map, token?, children, Function.comp_def]
    | _ => rfl
  | entry e => cases e <;> rfl

/-- The greatest height is a maximum over all outlines. -/
theorem maxHeight_eq_foldr (os : List Outline) :
    Outline.maxHeight os = (os.map Outline.height).foldr max 0 := by
  induction os with
  | nil => rfl
  | cons o os ih => rw [Outline.maxHeight, ih, List.map_cons, List.foldr_cons]

/-- An outline is as tall as its tree. -/
theorem height_outline (n : TreeNode) : n.outline.height = n.height := by
  have hchildren : n.children.map (fun c => c.outline.height) = n.children.map height :=
    List.map_congr_left fun c hc => c.height_outline
  rw [outline_eq, Outline.height, maxHeight_eq_foldr, List.map_map, height_eq, ← hchildren]
  rfl
termination_by sizeOf n
decreasing_by exact sizeOf_lt_of_mem hc

end Outlines

/-- A node of the tree below `top` and the nodes above it up to `top`, the nearest first. -/
inductive Lineage (top : TreeNode) : List TreeNode → Prop
  | top : Lineage top [top]
  | child {c n : TreeNode} {above : List TreeNode} (below : c ∈ n.children)
      (lineage : Lineage top (n :: above)) : Lineage top (c :: n :: above)

/-- The nearest token of a lineage, if there is one. -/
def nearest (lineage : List TreeNode) (otherwise : Token) : Token :=
  (lineage.findSome? token?).getD otherwise

/-- The nearest token is that of the node itself, or else the nearest one above it. -/
theorem nearest_cons (n : TreeNode) (above : List TreeNode) (otherwise : Token) :
    nearest (n :: above) otherwise = n.token?.getD (nearest above otherwise) := by
  unfold nearest
  cases h : n.token? <;> simp [h]

end TreeNode

namespace Outline

open TreeNode (Lineage nearest nearest_cons)

section Lineages

variable {top : TreeNode} {otherwise : Token} {v : Visit} {limit : Nat}

/-- A visit that stands for the lineage of a node: of the node it has the outline, of the lineage
the length, and from the nodes above the nearest token. -/
def Stands (top : TreeNode) (otherwise : Token) (v : Visit) : Prop :=
  ∃ n above, Lineage top (n :: above) ∧
    v = ⟨n.outline, above.length + 1, nearest above otherwise⟩

/-- A visit of a node is blamed on the nearest token of its lineage. -/
theorem blamed_eq (n : TreeNode) (above : List TreeNode) (level : Nat) :
    Visit.blamed ⟨n.outline, level, nearest above otherwise⟩ = nearest (n :: above) otherwise := by
  rw [Visit.blamed, n.outline_eq, nearest_cons]
  rfl

/-- The visits that a visit gives rise to stand for longer lineages. -/
theorem Stands.below (h : Stands top otherwise v) : ∀ w ∈ v.below, Stands top otherwise w := by
  obtain ⟨n, above, hlineage, rfl⟩ := h
  intro w hw
  rw [Visit.below, blamed_eq, n.outline_eq] at hw
  obtain ⟨o, ho, rfl⟩ := List.mem_map.mp hw
  obtain ⟨c, hc, rfl⟩ := List.mem_map.mp (List.mem_reverse.mp ho)
  exact ⟨c, n :: above, .child hc hlineage, rfl⟩

/-- What the search finds is the nearest token of the lineage of a node at the first level beyond
the limit. -/
theorem firstBeyond_nearest {visits : List Visit} {t : Token}
    (h : firstBeyond limit visits = some t) (hvisits : ∀ v ∈ visits, Stands top otherwise v)
    (hlevels : ∀ v ∈ visits, v.level ≤ limit + 1) :
    ∃ lineage, Lineage top lineage ∧ lineage.length = limit + 1 ∧
      t = nearest lineage otherwise := by
  induction visits using firstBeyond.induct limit with
  | case1 => simp [firstBeyond] at h
  | case2 v pending hbeyond =>
    obtain ⟨n, above, hlineage, rfl⟩ := hvisits v List.mem_cons_self
    have hlevel : above.length + 1 ≤ limit + 1 := hlevels _ List.mem_cons_self
    have hbeyond' : limit < above.length + 1 := hbeyond
    rw [firstBeyond, if_pos hbeyond, blamed_eq] at h
    refine ⟨n :: above, hlineage, ?_, (Option.some.inj h).symm⟩
    rw [List.length_cons]
    omega
  | case3 v pending hwithin ih =>
    rw [firstBeyond, if_neg hwithin] at h
    rw [List.forall_mem_cons] at hvisits hlevels
    apply ih h
    · exact List.forall_mem_append.mpr ⟨hvisits.1.below, hvisits.2⟩
    · refine List.forall_mem_append.mpr ⟨fun w hw => ?_, hlevels.2⟩
      obtain ⟨o, -, rfl⟩ := List.mem_map.mp hw
      simp only []
      omega

end Lineages

/-- The search as far as it comes in a number of rounds, each of which looks at one visit. -/
def firstBeyondWithin (limit : Nat) : (rounds : Nat) → List Visit → Option (Option Token)
  | _, [] => some none
  | 0, _ :: _ => none
  | rounds + 1, v :: pending =>
    if limit < v.level then some (some v.blamed)
    else firstBeyondWithin limit rounds (v.below ++ pending)

/-- The search ends after no more rounds than there are nodes: each round takes one node from those
still to be looked at. -/
theorem firstBeyondWithin_eq {limit rounds : Nat} {visits : List Visit}
    (h : totalSize (visits.map (·.outline)) ≤ rounds) :
    firstBeyondWithin limit rounds visits = some (firstBeyond limit visits) := by
  induction rounds generalizing visits with
  | zero =>
    cases visits with
    | nil => rw [firstBeyondWithin, firstBeyond]
    | cons v pending =>
      have := v.totalSize_below
      simp only [List.map_cons, totalSize] at h
      omega
  | succ rounds ih =>
    cases visits with
    | nil => rw [firstBeyondWithin, firstBeyond]
    | cons v pending =>
      rw [firstBeyondWithin, firstBeyond]
      split
      · rfl
      · apply ih
        have := v.totalSize_below
        simp only [List.map_cons, totalSize] at h
        rw [List.map_append, totalSize_append]
        omega

end Outline

end Moonbridge
