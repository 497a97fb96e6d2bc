import Moonbridge.Proofs.Node.Typed

/-!
# The first defect of an untyped tree

A tree has positions for statements, for expressions and for binary operators, and anything may
stand there. Code is written from left to right, and a node before its parts. So an untyped program
has code exactly if all of its positions are filled with what belongs there, and otherwise the
first one that is not says what is wrong. A program that has code has a dump too.
-/

namespace Moonbridge

/-- A position in an untyped tree, with what stands there. -/
inductive Position
  | statement (node : Node)
  | expression (node : Node)
  | operator (token : Token)

/-- Whether a node is a statement. -/
def Node.isStatement : Node → Bool
  | .expression _ | .function .. | .conditional .. | .returned .. | .declared .. | .loop ..
  | .block _ => true
  | _ => false

/-- Whether a node is an expression. -/
def Node.isExpression : Node → Bool
  | .binary .. | .grouping _ | .literal _ | .unary .. | .name _ | .assign .. | .call ..
  | .table _ | .index .. => true
  | _ => false

/-- The categories of the binary operators. -/
def Kind.operators : List Kind :=
  [.plus, .minus, .star, .slash, .equal, .notEqual, .less, .lessEqual, .greater, .greaterEqual,
    .andKeyword, .orKeyword]

/-- The position of a node that may be absent. -/
def Node.optional (position : Node → Position) : Node → List Position
  | .null => []
  | node => [position node]

/-- The positions of a table entry: the key, if there is one, and the value. -/
def NodeEntry.parts : NodeEntry → List Position
  | .mk key value => key.optional .expression ++ [.expression value]

/-- The positions right below a node, in the order in which code is written for them. -/
def Node.parts : Node → List Position
  | .binary left op right => [.expression left, .operator op, .expression right]
  | .grouping inner => [.expression inner]
  | .unary _ operand => [.expression operand]
  | .assign _ value => [.expression value]
  | .call callee _ args => .expression callee :: args.map .expression
  | .table entries => entries.flatMap NodeEntry.parts
  | .index base key => [.expression base, .expression key]
  | .expression expr => [.expression expr]
  | .function _ _ body => body.map .statement
  | .conditional cond thenBranch elseBranch =>
    .expression cond :: .statement thenBranch :: elseBranch.optional .statement
  | .returned _ value => value.optional .expression
  | .declared _ initial => initial.optional .expression
  | .loop cond body => [.expression cond, .statement body]
  | .block body => body.map .statement
  | _ => []

namespace Position

/-- Whether what stands at a position belongs there. -/
def isFilled : Position → Bool
  | statement node => node.isStatement
  | expression node => node.isExpression
  | operator token => token.kind ∈ Kind.operators

/-- What is wrong with a position that is not filled. -/
def defect : Position → Defect
  | statement node => .noStatement node.typeName
  | expression node => .noExpression node.typeName
  | operator token => .noOperator token.kind

/-- The positions right below one. -/
def parts : Position → List Position
  | statement node | expression node => node.parts
  | operator _ => []

/-- A node that may be absent has at most one position. -/
theorem eq_of_mem_optional {position : Node → Position} {node : Node} {p : Position}
    (h : p ∈ node.optional position) : p = position node := by
  cases node <;> simp_all [Node.optional]

/-- What stands right below a node is smaller. -/
theorem sizeOf_lt_of_mem_node (node : Node) : ∀ p ∈ node.parts, sizeOf p < 1 + sizeOf node := by
  cases node with
  | call callee paren args =>
    simp only [Node.parts, List.forall_mem_cons, List.forall_mem_map, expression.sizeOf_spec,
      Node.call.sizeOf_spec]
    refine ⟨by omega, fun arg harg => ?_⟩
    have := List.sizeOf_lt_of_mem harg
    omega
  | table entries =>
    intro p hp
    obtain ⟨⟨key, value⟩, hentry, hp⟩ := List.mem_flatMap.mp hp
    have hsize := List.sizeOf_lt_of_mem hentry
    rw [NodeEntry.mk.sizeOf_spec] at hsize
    rw [Node.table.sizeOf_spec]
    rcases List.mem_append.mp hp with hp | hp
    · rw [eq_of_mem_optional hp, expression.sizeOf_spec]
      omega
    · rw [List.mem_singleton.mp hp, expression.sizeOf_spec]
      omega
  | function name params body =>
    simp only [Node.parts, List.forall_mem_map, statement.sizeOf_spec,
      Node.function.sizeOf_spec]
    intro stmt hstmt
    have := List.sizeOf_lt_of_mem hstmt
    omega
  | block body =>
    simp only [Node.parts, List.forall_mem_map, statement.sizeOf_spec, Node.block.sizeOf_spec]
    intro stmt hstmt
    have := List.sizeOf_lt_of_mem hstmt
    omega
  | conditional cond thenBranch elseBranch =>
    simp only [Node.parts, List.forall_mem_cons, statement.sizeOf_spec, expression.sizeOf_spec,
      Node.conditional.sizeOf_spec]
    refine ⟨by omega, by omega, fun p hp => ?_⟩
    rw [eq_of_mem_optional hp, statement.sizeOf_spec]
    omega
  | returned keyword value =>
    intro p hp
    rw [eq_of_mem_optional hp, expression.sizeOf_spec, Node.returned.sizeOf_spec]
    omega
  | declared name initial =>
    intro p hp
    rw [eq_of_mem_optional hp, expression.sizeOf_spec, Node.declared.sizeOf_spec]
    omega
  | _ => simp [Node.parts] <;> omega

/-- What stands right below a position is smaller. -/
theorem sizeOf_lt_of_mem_parts {p q : Position} (h : q ∈ p.parts) : sizeOf q < sizeOf p := by
  cases p with
  | statement node => exact sizeOf_lt_of_mem_node node q h
  | expression node => exact sizeOf_lt_of_mem_node node q h
  | operator token => cases h

/-- A position and all positions below it, each before those below it. -/
def within (p : Position) : List Position :=
  p :: p.parts.attach.flatMap fun q => q.1.within
termination_by sizeOf p
decreasing_by exact sizeOf_lt_of_mem_parts q.2

/-- A position comes first, and then the positions within each of its parts. -/
theorem within_eq (p : Position) : p.within = p :: p.parts.flatMap within := by
  rw [within, List.flatMap_subtype (g := within) (by simp), List.unattach_attach]

end Position

/-- What positions say about the outcome of a check. It succeeds, with a result as described, if
all of them are filled, and otherwise fails with the defect of the first one that is not. -/
inductive Decided {α : Type} (positions : List Position) (result : α → Prop) :
    Except Defect α → Prop
  | sound {a : α} (filled : ∀ p ∈ positions, p.isFilled = true) (holds : result a) :
      Decided positions result (.ok a)
  | defective {before after : List Position} {p : Position}
      (split : positions = before ++ p :: after) (filled : ∀ q ∈ before, q.isFilled = true)
      (unfilled : p.isFilled = false) : Decided positions result (.error p.defect)

namespace Decided

variable {α β : Type} {p : Position} {positions positions' : List Position} {result : α → Prop}
  {result' : β → Prop} {outcome : Except Defect α} {a : α}

/-- A check without positions succeeds with what it answers. -/
theorem pure (h : result a) : Decided [] result (pure a) := .sound (by simp) h

/-- A check behind another one is decided by the positions behind those of the other one. -/
theorem bind {next : α → Except Defect β} (h : Decided positions result outcome)
    (hnext : ∀ a, result a → Decided positions' result' (next a)) :
    Decided (positions ++ positions') result' (outcome >>= next) := by
  cases h with
  | @sound a filled holds =>
    have hthen : Decided positions' result' (.ok a >>= next) := hnext a holds
    generalize (.ok a >>= next : Except Defect β) = outcome' at hthen
    cases hthen with
    | sound filled' holds' =>
      exact .sound (List.forall_mem_append.mpr ⟨filled, filled'⟩) holds'
    | defective split filled' unfilled =>
      subst split
      exact .defective (List.append_assoc ..).symm
        (List.forall_mem_append.mpr ⟨filled, filled'⟩) unfilled
  | defective split filled unfilled =>
    subst split
    exact .defective (List.append_assoc ..) filled unfilled

/-- An answer may be made into another one behind a check. -/
theorem map {f : α → β} (h : Decided positions result outcome)
    (hf : ∀ a, result a → result' (f a)) :
    Decided positions result' (outcome >>= fun a => Pure.pure (f a)) := by
  simpa using h.bind fun a ha => Decided.pure (hf a ha)

/-- A filled position leaves the decision to those below it. -/
theorem below (hp : p.isFilled = true)
    (h : Decided (p.parts.flatMap Position.within) result outcome) :
    Decided p.within result outcome := by
  rw [Position.within_eq]
  cases h with
  | sound filled holds => exact .sound (List.forall_mem_cons.mpr ⟨hp, filled⟩) holds
  | defective split filled unfilled =>
    rw [split]
    exact .defective (List.cons_append ..).symm (List.forall_mem_cons.mpr ⟨hp, filled⟩) unfilled

/-- A position that is not filled ends the check. -/
theorem here (hp : p.isFilled = false) : Decided p.within result (.error p.defect) := by
  rw [Position.within_eq]
  exact .defective (List.nil_append _).symm (by simp) hp

end Decided

section Checks

/-- A node that is present has its position. -/
theorem Node.optional_of_ne_null {node : Node} (h : node ≠ .null) (position : Node → Position) :
    node.optional position = [position node] := by
  cases node with
  | null => exact absurd rfl h
  | _ => rfl

/-- The twelve categories are those of the binary operators. -/
theorem Kind.mem_operators_iff {k : Kind} : k ∈ operators ↔ ∃ op : BinaryOp, k = op.kind := by
  simp only [← BinaryOp.ofKind?_eq_some_iff]
  cases k <;> simp [operators, BinaryOp.ofKind?]

/-- The check of an operator is decided by its category. -/
theorem Operator.check_decided (token : Token) :
    Decided (Position.operator token).within (token = Operator.token ·)
      (Operator.check token) := by
  unfold Operator.check
  cases hop : Operator.ofToken? token with
  | some op =>
    have htoken := Parser.token_of_ofToken? hop
    have hkind : token.kind ∈ Kind.operators :=
      Kind.mem_operators_iff.mpr ⟨op.op, htoken ▸ op.kind_eq⟩
    exact .below (decide_eq_true hkind) (.pure htoken.symm)
  | none =>
    refine .here (decide_eq_false fun hkind => ?_)
    obtain ⟨op, hkind⟩ := Kind.mem_operators_iff.mp hkind
    cases hop.symm.trans (Parser.ofToken?_token ⟨token, op, hkind⟩)

mutual

/-- The check of an expression is decided by its positions, and answers an expression that the node
is the untyped tree of. -/
theorem Node.checkExpr_decided : ∀ node : Node,
    Decided (Position.expression node).within (node = Expr.node ·) node.checkExpr
  | .binary left op right => by
    refine .below rfl ?_
    refine left.checkExpr_decided.bind fun left' hleft => ?_
    refine (Operator.check_decided op).bind fun op' hop => ?_
    refine right.checkExpr_decided.bind fun right' hright => .pure ?_
    rw [Expr.node, ← hleft, ← hop, ← hright]
  | .grouping inner => by
    refine .below rfl ?_
    refine inner.checkExpr_decided.bind fun inner' hinner => .pure ?_
    rw [Expr.node, ← hinner]
  | .literal value => .below rfl (.pure rfl)
  | .unary op operand => by
    refine .below rfl ?_
    refine operand.checkExpr_decided.bind fun operand' hoperand => .pure ?_
    rw [Expr.node, ← hoperand]
  | .name token => .below rfl (.pure rfl)
  | .assign target value => by
    refine .below rfl ?_
    refine value.checkExpr_decided.bind fun value' hvalue => .pure ?_
    rw [Expr.node, ← hvalue]
  | .call callee paren args => by
    refine .below rfl ?_
    refine callee.checkExpr_decided.bind fun callee' hcallee => ?_
    refine (Node.checkExprs_decided args).map fun args' hargs => ?_
    rw [Expr.node, ← hcallee, ← hargs]
  | .table entries => by
    refine .below rfl ?_
    refine (NodeEntry.checkAll_decided entries).map fun entries' hentries => ?_
    rw [Expr.node, ← hentries]
  | .index base key => by
    refine .below rfl ?_
    refine base.checkExpr_decided.bind fun base' hbase => ?_
    refine key.checkExpr_decided.bind fun key' hkey => .pure ?_
    rw [Expr.node, ← hbase, ← hkey]
  | .null | .bool _ | .int _ | .float _ | .text _ | .token _ | .list _ | .entry _
  | .expression _ | .function .. | .conditional .. | .returned .. | .declared .. | .loop ..
  | .block _ => .here rfl

/-- The check of several expressions is decided by the positions of all of them in order. -/
theorem Node.checkExprs_decided : ∀ nodes : List Node,
    Decided ((nodes.map .expression).flatMap Position.within) (nodes = Expr.nodes ·)
      (Node.checkExprs nodes)
  | [] => .pure rfl
  | node :: nodes => by
    refine node.checkExpr_decided.bind fun expr hexpr => ?_
    refine (Node.checkExprs_decided nodes).map fun exprs hexprs => ?_
    rw [Expr.nodes, ← hexpr, ← hexprs]

/-- The check of an entry is decided by the positions of its key and its value. -/
theorem NodeEntry.check_decided : ∀ entry : NodeEntry,
    Decided (entry.parts.flatMap Position.within) (entry = Entry.node ·) entry.check
  | .mk key value => by
    by_cases hnull : key = .null
    · subst hnull
      refine value.checkExpr_decided.bind fun value' hvalue => .pure ?_
      rw [Entry.node, ← hvalue]
    · rw [NodeEntry.check_of_ne_null hnull, NodeEntry.parts, Node.optional_of_ne_null hnull]
      refine key.checkExpr_decided.bind fun key' hkey => ?_
      refine value.checkExpr_decided.bind fun value' hvalue => .pure ?_
      rw [Entry.node, ← hkey, ← hvalue]

/-- The check of several entries is decided by the positions of all of them in order. -/
theorem NodeEntry.checkAll_decided : ∀ entries : List NodeEntry,
    Decided ((entries.flatMap NodeEntry.parts).flatMap Position.within) (entries = Entry.nodes ·)
      (Node.checkEntries entries)
  | [] => .pure rfl
  | entry :: entries => by
    rw [List.flatMap_cons, List.flatMap_append]
    refine entry.check_decided.bind fun entry' hentry => ?_
    refine (NodeEntry.checkAll_decided entries).map fun entries' hentries => ?_
    rw [Entry.nodes, ← hentry, ← hentries]

end

/-- An expression that may be absent has no position if it is. -/
theorem Node.checkOption_decided (node : Node) :
    Decided ((node.optional .expression).flatMap Position.within) (node = Expr.optionNode ·)
      node.checkOption := by
  by_cases hnull : node = .null
  · subst hnull
    exact .pure rfl
  · rw [Node.checkOption_of_ne_null hnull, Node.optional_of_ne_null hnull]
    exact node.checkExpr_decided.bind fun expr hexpr => .pure hexpr

mutual

/-- The check of a statement is decided by its positions, and answers a statement that the node is
the untyped tree of. -/
theorem Node.checkStmt_decided : ∀ node : Node,
    Decided (Position.statement node).within (node = Stmt.node ·) node.checkStmt
  | .expression expr => by
    refine .below rfl ?_
    refine expr.checkExpr_decided.bind fun expr' hexpr => .pure ?_
    rw [Stmt.node, ← hexpr]
  | .function ident params body => by
    refine .below rfl ?_
    refine (Node.checkStmts_decided body).map fun body' hbody => ?_
    rw [Stmt.node, ← hbody]
  | .conditional cond thenBranch elseBranch => by
    refine .below rfl ?_
    by_cases hnull : elseBranch = .null
    · subst hnull
      refine cond.checkExpr_decided.bind fun cond' hcond => ?_
      refine thenBranch.checkStmt_decided.bind fun thenBranch' hthen => .pure ?_
      rw [Stmt.node, ← hcond, ← hthen]
    · rw [Node.checkStmt_of_ne_null hnull, Position.parts, Node.parts,
        Node.optional_of_ne_null hnull]
      refine cond.checkExpr_decided.bind fun cond' hcond => ?_
      refine thenBranch.checkStmt_decided.bind fun thenBranch' hthen => ?_
      refine elseBranch.checkStmt_decided.bind fun elseBranch' helse => .pure ?_
      rw [Stmt.node, ← hcond, ← hthen, ← helse]
  | .returned keyword value => by
    refine .below rfl ?_
    refine value.checkOption_decided.map fun value' hvalue => ?_
    rw [Stmt.node, ← hvalue]
  | .declared ident initial => by
    refine .below rfl ?_
    refine initial.checkOption_decided.map fun initial' hinitial => ?_
    rw [Stmt.node, ← hinitial]
  | .loop cond body => by
    refine .below rfl ?_
    refine cond.checkExpr_decided.bind fun cond' hcond => ?_
    refine body.checkStmt_decided.bind fun body' hbody => .pure ?_
    rw [Stmt.node, ← hcond, ← hbody]
  | .block body => by
    refine .below rfl ?_
    refine (Node.checkStmts_decided body).map fun body' hbody => ?_
    rw [Stmt.node, ← hbody]
  | .null | .bool _ | .int _ | .float _ | .text _ | .token _ | .list _ | .binary ..
  | .grouping _ | .literal _ | .unary .. | .name _ | .assign .. | .call .. | .entry _ | .table _
  | .index .. => .here rfl

/-- The check of several statements is decided by the positions of all of them in order. -/
theorem Node.checkStmts_decided : ∀ nodes : List Node,
    Decided ((nodes.map .statement).flatMap Position.within) (nodes = Stmt.nodes ·)
      (Node.checkStmts nodes)
  | [] => .pure rfl
  | node :: nodes => by
    refine node.checkStmt_decided.bind fun stmt hstmt => ?_
    refine (Node.checkStmts_decided nodes).map fun stmts hstmts => ?_
    rw [Stmt.nodes, ← hstmt, ← hstmts]

end

end Checks

/-- All positions of an untyped program, in the order in which code is written for them. -/
def Position.ofProgram (program : List Node) : List Position :=
  (program.map .statement).flatMap Position.within

/-- Whether an untyped program has code, and with it a dump, is decided by its positions. -/
theorem Node.javaScript_decided (program : List Node) :
    Decided (Position.ofProgram program) (fun _ => ∃ json, Node.dumpProgram program = .ok json)
      (Node.javaScript program) := by
  refine (Node.checkStmts_decided program).map fun stmts hstmts => ?_
  exact ⟨_, hstmts ▸ dumpProgram_nodes stmts⟩

/-- At most one position is the first one that is not filled. -/
theorem Position.first_unfilled {positions before after : List Position} {p : Position}
    (split : positions = before ++ p :: after) (filled : ∀ q ∈ before, q.isFilled = true)
    (unfilled : p.isFilled = false) : positions.find? (!·.isFilled) = some p := by
  refine List.find?_eq_some_iff_append.mpr ⟨by rw [unfilled]; rfl, before, after, split, ?_⟩
  simpa using filled

/-- An untyped program has code exactly if every position holds what belongs there: a statement, an
expression, or one of the twelve operators. Otherwise it fails with the defect of the first
position, in the order in which code is written, that does not. If it has code, it has a dump. -/
theorem untyped_checked (program : List Node) :
    ((∃ code, Node.javaScript program = .ok code) ↔
      ∀ p ∈ Position.ofProgram program, p.isFilled = true) ∧
    (∀ defect, Node.javaScript program = .error defect ↔
      ∃ before p after, Position.ofProgram program = before ++ p :: after ∧
        (∀ q ∈ before, q.isFilled = true) ∧ p.isFilled = false ∧ defect = p.defect) ∧
    ((∃ code, Node.javaScript program = .ok code) →
      ∃ json, Node.dumpProgram program = .ok json) := by
  have hdecided := Node.javaScript_decided program
  generalize Node.javaScript program = outcome at hdecided
  cases hdecided with
  | @sound code filled holds =>
    refine ⟨⟨fun _ => filled, fun _ => ⟨code, rfl⟩⟩, fun defect => ⟨nofun, ?_⟩, fun _ => holds⟩
    rintro ⟨before, p, after, split, -, unfilled, -⟩
    have hp : p ∈ Position.ofProgram program := by simp [split]
    simp [filled p hp] at unfilled
  | @defective before after p split filled unfilled =>
    refine ⟨⟨nofun, fun hall => ?_⟩, fun defect => ⟨?_, ?_⟩, nofun⟩
    · have hp : p ∈ Position.ofProgram program := by simp [split]
      simp [hall p hp] at unfilled
    · intro hdefect
      exact ⟨before, p, after, split, filled, unfilled, (Except.error.inj hdefect).symm⟩
    · rintro ⟨before', p', after', split', filled', unfilled', rfl⟩
      have hfirst := Position.first_unfilled split filled unfilled
      rw [Position.first_unfilled split' filled' unfilled'] at hfirst
      rw [Option.some.inj hfirst]

section Sample

/-- A name that stands wherever an expression does. -/
def nameNode : Node := .name ⟨.identifier, "t", .nil, 1⟩

/-- A minus sign, which is a binary operator. -/
def minusSign : Token := ⟨.minus, "-", .nil, 1⟩

/-- A comma, which is none. -/
def commaSign : Token := ⟨.comma, ",", .nil, 1⟩

/-- A binary node of two names. -/
def operandsNode (op : Token) : Node := .binary nameNode op nameNode

/-- A table whose only entry has a key. -/
def tableNode : Node := .table [.mk (.literal (.text "k")) (.grouping nameNode)]

/-- A table is assigned. -/
def assignNode : Node := .assign ⟨.identifier, "t", .nil, 1⟩ tableNode

/-- A conditional with an operator in its condition, a table in its first branch, and a second
branch. -/
def branchesNode (op : Token) (elseBranch : Node) : Node :=
  .conditional (operandsNode op) (.expression assignNode) elseBranch

/-- A return without a value. -/
def returnNode : Node := .returned ⟨.returnKeyword, "return", .nil, 2⟩ .null

/-- The positions in front of a comma in the condition. -/
def positionsBefore : List Position :=
  [.statement (branchesNode commaSign nameNode), .expression (operandsNode commaSign),
    .expression nameNode]

/-- The positions behind it. The last one holds a name in the place of a statement. -/
def positionsAfter : List Position :=
  [.expression nameNode, .statement (.expression assignNode), .expression assignNode,
    .expression tableNode, .expression (.literal (.text "k")), .expression (.grouping nameNode),
    .expression nameNode, .statement nameNode]

/-- The comma is the fourth of twelve positions. -/
theorem ofProgram_branchesNode : Position.ofProgram [branchesNode commaSign nameNode] =
    positionsBefore ++ .operator commaSign :: positionsAfter := by
  simp [Position.ofProgram, Position.within_eq, Position.parts, Node.parts, Node.optional,
    NodeEntry.parts, branchesNode, operandsNode, nameNode, assignNode, tableNode, positionsBefore,
    positionsAfter]

private theorem isFilled_positionsBefore : ∀ p ∈ positionsBefore, p.isFilled = true := by
  simp [positionsBefore, Position.isFilled, branchesNode, operandsNode, nameNode,
    Node.isStatement, Node.isExpression]

/-- With a minus sign and a return in the second branch all positions are filled. -/
theorem javaScript_branchesNode : Node.javaScript [branchesNode minusSign returnNode] =
    .ok "if ((t - t)) \x7b\n  t = \x7b\"k\": (t)\x7d;\n\x7d else \x7b\n  return;\n\x7d" := by
  rfl

end Sample

/-- A conditional with nested parts has code and a dump. With a comma for its operator and a name
for its second branch it has no code, and the comma is what is reported. -/
theorem untyped_checked_branches :
    ((∃ code, Node.javaScript [branchesNode minusSign returnNode] = .ok code) ∧
      (∀ p ∈ Position.ofProgram [branchesNode minusSign returnNode], p.isFilled = true) ∧
      ∃ json, Node.dumpProgram [branchesNode minusSign returnNode] = .ok json) ∧
    Position.ofProgram [branchesNode commaSign nameNode] =
      positionsBefore ++ .operator commaSign :: positionsAfter ∧
    (∃ p ∈ positionsAfter, p.isFilled = false) ∧
    Node.javaScript [branchesNode commaSign nameNode] = .error (.noOperator .comma) := by
  have hcode : ∃ code, Node.javaScript [branchesNode minusSign returnNode] = .ok code :=
    ⟨_, javaScript_branchesNode⟩
  obtain ⟨hfilled, -, hdump⟩ := untyped_checked [branchesNode minusSign returnNode]
  obtain ⟨-, hdefect, -⟩ := untyped_checked [branchesNode commaSign nameNode]
  refine ⟨⟨hcode, hfilled.mp hcode, hdump hcode⟩, ofProgram_branchesNode, ?_, ?_⟩
  · exact ⟨.statement nameNode, by simp [positionsAfter], rfl⟩
  · exact (hdefect _).mpr ⟨positionsBefore, .operator commaSign, positionsAfter,
      ofProgram_branchesNode, isFilled_positionsBefore, rfl, rfl⟩

/-- An operator is looked at before its right operand. -/
example : Node.javaScript [.expression (.binary (.name ⟨.identifier, "x", .nil, 1⟩)
    ⟨.comma, ",", .nil, 1⟩ .null)] = .error (.noOperator .comma) := rfl

end Moonbridge
