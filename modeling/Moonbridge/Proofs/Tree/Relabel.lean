import Moonbridge.Tree.Outline

/-!
# Trees with other lines

A relabeling changes tokens but keeps what the grammar and the output see of them: the kind,
the text and the value. It acts on trees token by token, and the search for a node that stands
too deep blames the relabeled token.
-/

namespace Moonbridge

/-- A change of tokens that keeps their kind, text and value. -/
structure Relabeling where
  token : Token → Token
  kind_token : ∀ t, (token t).kind = t.kind
  lexeme_token : ∀ t, (token t).lexeme = t.lexeme
  literal_token : ∀ t, (token t).literal = t.literal

attribute [simp] Relabeling.kind_token Relabeling.lexeme_token Relabeling.literal_token

namespace Relabeling

/-- The relabeling that changes nothing. -/
def identity : Relabeling := ⟨id, fun _ => rfl, fun _ => rfl, fun _ => rfl⟩

@[simp] theorem token_identity : identity.token = id := rfl

@[simp] theorem isEnd_token (r : Relabeling) (t : Token) : (r.token t).isEnd = t.isEnd := by
  simp [Token.isEnd]

end Relabeling

/-- The same operator read from the relabeled token. -/
def Operator.relabel (r : Relabeling) (op : Operator) : Operator :=
  ⟨r.token op.token, op.op, by rw [r.kind_token, op.kind_eq]⟩

/-- A token denotes the same operator under any label. -/
theorem Operator.ofToken?_token (r : Relabeling) (t : Token) :
    Operator.ofToken? (r.token t) = (Operator.ofToken? t).map (Operator.relabel r) := by
  unfold Operator.ofToken?
  split
  · rename_i op h
    rw [r.kind_token] at h
    split
    · rename_i op' h'
      obtain rfl : op = op' := Option.some.inj (h.symm.trans h')
      rfl
    · rename_i h'
      cases h.symm.trans h'
  · rename_i h
    rw [r.kind_token] at h
    split
    · rename_i op' h'
      cases h.symm.trans h'
    · rfl

mutual

/-- An expression with relabeled tokens. -/
def Expr.relabel (r : Relabeling) : Expr → Expr
  | .binary left op right => .binary (left.relabel r) (op.relabel r) (right.relabel r)
  | .grouping inner => .grouping (inner.relabel r)
  | .literal value => .literal value
  | .unary op operand => .unary (r.token op) (operand.relabel r)
  | .name token => .name (r.token token)
  | .assign target value => .assign (r.token target) (value.relabel r)
  | .call callee paren args =>
    .call (callee.relabel r) (r.token paren) (Expr.relabelAll r args)
  | .table entries => .table (Entry.relabelAll r entries)
  | .index table key => .index (table.relabel r) (key.relabel r)

/-- A table entry with relabeled tokens. -/
def Entry.relabel (r : Relabeling) : Entry → Entry
  | .positional value => .positional (value.relabel r)
  | .keyed key value => .keyed (key.relabel r) (value.relabel r)

/-- Expressions with relabeled tokens. -/
def Expr.relabelAll (r : Relabeling) : List Expr → List Expr
  | [] => []
  | e :: es => e.relabel r :: Expr.relabelAll r es

/-- Table entries with relabeled tokens. -/
def Entry.relabelAll (r : Relabeling) : List Entry → List Entry
  | [] => []
  | e :: es => e.relabel r :: Entry.relabelAll r es

end

mutual

/-- A statement with relabeled tokens. -/
def Stmt.relabel (r : Relabeling) : Stmt → Stmt
  | .expression expr => .expression (expr.relabel r)
  | .function name params body =>
    .function (r.token name) (params.map r.token) (Stmt.relabelAll r body)
  | .conditional cond thenBranch none =>
    .conditional (cond.relabel r) (thenBranch.relabel r) none
  | .conditional cond thenBranch (some elseBranch) =>
    .conditional (cond.relabel r) (thenBranch.relabel r) (some (elseBranch.relabel r))
  | .returned keyword value => .returned (r.token keyword) (value.map (Expr.relabel r))
  | .declared name initial => .declared (r.token name) (initial.map (Expr.relabel r))
  | .loop cond body => .loop (cond.relabel r) (body.relabel r)
  | .block statements => .block (Stmt.relabelAll r statements)

/-- Statements with relabeled tokens. -/
def Stmt.relabelAll (r : Relabeling) : List Stmt → List Stmt
  | [] => []
  | s :: ss => s.relabel r :: Stmt.relabelAll r ss

end

@[simp] theorem Expr.relabelAll_eq_map (r : Relabeling) (es : List Expr) :
    Expr.relabelAll r es = es.map (Expr.relabel r) := by
  induction es with
  | nil => rfl
  | cons e es ih => rw [Expr.relabelAll, ih, List.map_cons]

@[simp] theorem Entry.relabelAll_eq_map (r : Relabeling) (es : List Entry) :
    Entry.relabelAll r es = es.map (Entry.relabel r) := by
  induction es with
  | nil => rfl
  | cons e es ih => rw [Entry.relabelAll, ih, List.map_cons]

@[simp] theorem Stmt.relabelAll_eq_map (r : Relabeling) (ss : List Stmt) :
    Stmt.relabelAll r ss = ss.map (Stmt.relabel r) := by
  induction ss with
  | nil => rfl
  | cons s ss ih => rw [Stmt.relabelAll, ih, List.map_cons]

mutual

/-- Relabeling by the identity changes no expression. -/
theorem Expr.relabel_identity : ∀ e : Expr, e.relabel .identity = e
  | .binary left op right => by
    rw [Expr.relabel, Expr.relabel_identity left, Expr.relabel_identity right]
    rfl
  | .grouping inner => by rw [Expr.relabel, Expr.relabel_identity inner]
  | .literal value => rfl
  | .unary op operand => by rw [Expr.relabel, Expr.relabel_identity operand]; rfl
  | .name token => rfl
  | .assign target value => by rw [Expr.relabel, Expr.relabel_identity value]; rfl
  | .call callee paren args => by
    rw [Expr.relabel, Expr.relabel_identity callee, Expr.relabelAll_identity args]
    rfl
  | .table entries => by rw [Expr.relabel, Entry.relabelAll_identity entries]
  | .index table key => by
    rw [Expr.relabel, Expr.relabel_identity table, Expr.relabel_identity key]

/-- Labels that are kept change no entry. -/
theorem Entry.relabel_identity : ∀ e : Entry, e.relabel .identity = e
  | .positional value => by rw [Entry.relabel, Expr.relabel_identity value]
  | .keyed key value => by
    rw [Entry.relabel, Expr.relabel_identity key, Expr.relabel_identity value]

/-- Labels that are kept change no expressions. -/
theorem Expr.relabelAll_identity : ∀ es : List Expr, Expr.relabelAll .identity es = es
  | [] => rfl
  | e :: es => by rw [Expr.relabelAll, Expr.relabel_identity e, Expr.relabelAll_identity es]

/-- Labels that are kept change no entries. -/
theorem Entry.relabelAll_identity : ∀ es : List Entry, Entry.relabelAll .identity es = es
  | [] => rfl
  | e :: es => by rw [Entry.relabelAll, Entry.relabel_identity e, Entry.relabelAll_identity es]

end

mutual

/-- Relabeling by the identity changes no statement. -/
theorem Stmt.relabel_identity : ∀ s : Stmt, s.relabel .identity = s
  | .expression expr => by rw [Stmt.relabel, Expr.relabel_identity expr]
  | .function name params body => by
    rw [Stmt.relabel, Stmt.relabelAll_identity body, Relabeling.token_identity, List.map_id]
    rfl
  | .conditional cond thenBranch none => by
    rw [Stmt.relabel, Expr.relabel_identity cond, Stmt.relabel_identity thenBranch]
  | .conditional cond thenBranch (some elseBranch) => by
    rw [Stmt.relabel, Expr.relabel_identity cond, Stmt.relabel_identity thenBranch,
      Stmt.relabel_identity elseBranch]
  | .returned keyword value => by
    rw [Stmt.relabel, show Expr.relabel .identity = id from funext Expr.relabel_identity,
      Option.map_id]
    rfl
  | .declared name initial => by
    rw [Stmt.relabel, show Expr.relabel .identity = id from funext Expr.relabel_identity,
      Option.map_id]
    rfl
  | .loop cond body => by
    rw [Stmt.relabel, Expr.relabel_identity cond, Stmt.relabel_identity body]
  | .block statements => by rw [Stmt.relabel, Stmt.relabelAll_identity statements]

/-- Labels that are kept change no statements. -/
theorem Stmt.relabelAll_identity : ∀ ss : List Stmt, Stmt.relabelAll .identity ss = ss
  | [] => rfl
  | s :: ss => by rw [Stmt.relabelAll, Stmt.relabel_identity s, Stmt.relabelAll_identity ss]

end

namespace Outline

mutual

/-- An outline with relabeled tokens. -/
def relabel (r : Relabeling) : Outline → Outline
  | node mark children => node (mark.map r.token) (relabelAll r children)

/-- Outlines with relabeled tokens. -/
def relabelAll (r : Relabeling) : List Outline → List Outline
  | [] => []
  | o :: os => o.relabel r :: relabelAll r os

end

@[simp] theorem relabelAll_eq_map (r : Relabeling) (os : List Outline) :
    relabelAll r os = os.map (relabel r) := by
  induction os with
  | nil => rfl
  | cons o os ih => rw [relabelAll, ih, List.map_cons]

/-- A visit of the relabeled outline. -/
def Visit.relabel (r : Relabeling) (v : Visit) : Visit :=
  ⟨v.outline.relabel r, v.level, r.token v.near⟩

/-- The token that a relabeled visit blames is the relabeled one. -/
theorem Visit.blamed_relabel (r : Relabeling) (v : Visit) :
    (v.relabel r).blamed = r.token v.blamed := by
  obtain ⟨⟨mark, children⟩, level, near⟩ := v
  cases mark <;> rfl

/-- What is below a relabeled visit is relabeled with it. -/
theorem Visit.below_relabel (r : Relabeling) (v : Visit) :
    (v.relabel r).below = v.below.map (Visit.relabel r) := by
  have hb := v.blamed_relabel r
  obtain ⟨⟨mark, children⟩, level, near⟩ := v
  simp only [Visit.below, hb]
  simp [Visit.relabel, Outline.relabel, Outline.children, Function.comp_def]

/-- The search stops at the same node under any labels. -/
theorem firstBeyond_relabel (r : Relabeling) (limit : Nat) (visits : List Visit) :
    firstBeyond limit (visits.map (Visit.relabel r)) =
      (firstBeyond limit visits).map r.token := by
  fun_induction firstBeyond limit visits with
  | case1 => simp [firstBeyond]
  | case2 v pending h =>
    have hl : limit < (v.relabel r).level := h
    rw [List.map_cons, firstBeyond, if_pos hl, Visit.blamed_relabel, Option.map_some]
  | case3 v pending h ih =>
    have hl : ¬ limit < (v.relabel r).level := h
    rw [List.map_cons, firstBeyond, if_neg hl, Visit.below_relabel, ← List.map_append]
    exact ih

end Outline

mutual

/-- The outline of a relabeled expression is relabeled with it. -/
theorem Expr.outline_relabel (r : Relabeling) :
    ∀ e : Expr, (e.relabel r).outline = e.outline.relabel r
  | .binary left op right => by
    simp [Expr.relabel, Expr.outline, Outline.relabel, Expr.outline_relabel r left,
      Expr.outline_relabel r right, Operator.relabel]
  | .grouping inner => by
    simp [Expr.relabel, Expr.outline, Outline.relabel, Expr.outline_relabel r inner]
  | .literal value => by simp [Expr.relabel, Expr.outline, Outline.relabel]
  | .unary op operand => by
    simp [Expr.relabel, Expr.outline, Outline.relabel, Expr.outline_relabel r operand]
  | .name token => by simp [Expr.relabel, Expr.outline, Outline.relabel]
  | .assign target value => by
    simp [Expr.relabel, Expr.outline, Outline.relabel, Expr.outline_relabel r value]
  | .call callee paren args => by
    simp only [Expr.relabel, Expr.outline, Outline.relabel, Outline.relabelAll,
      Expr.outline_relabel r callee, Expr.outlines_relabel r args, Option.map_some]
  | .table entries => by
    simp only [Expr.relabel, Expr.outline, Outline.relabel, Entry.outlines_relabel r entries,
      Option.map_none]
  | .index table key => by
    simp [Expr.relabel, Expr.outline, Outline.relabel, Expr.outline_relabel r table,
      Expr.outline_relabel r key]

/-- The outline of a relabeled entry is relabeled with it. -/
theorem Entry.outline_relabel (r : Relabeling) :
    ∀ e : Entry, (e.relabel r).outline = e.outline.relabel r
  | .positional value => by
    simp [Entry.relabel, Entry.outline, Outline.relabel, Expr.outline_relabel r value]
  | .keyed key value => by
    simp [Entry.relabel, Entry.outline, Outline.relabel, Expr.outline_relabel r key,
      Expr.outline_relabel r value]

/-- The outlines of relabeled expressions are relabeled with them. -/
theorem Expr.outlines_relabel (r : Relabeling) :
    ∀ es : List Expr, Expr.outlines (Expr.relabelAll r es) =
      Outline.relabelAll r (Expr.outlines es)
  | [] => rfl
  | e :: es => by
    simp only [Expr.relabelAll, Expr.outlines, Outline.relabelAll, Expr.outline_relabel r e,
      Expr.outlines_relabel r es]

/-- The outlines of relabeled entries are relabeled with them. -/
theorem Entry.outlines_relabel (r : Relabeling) :
    ∀ es : List Entry, Entry.outlines (Entry.relabelAll r es) =
      Outline.relabelAll r (Entry.outlines es)
  | [] => rfl
  | e :: es => by
    simp only [Entry.relabelAll, Entry.outlines, Outline.relabelAll, Entry.outline_relabel r e,
      Entry.outlines_relabel r es]

end

mutual

/-- The outline of a relabeled statement is the relabeled outline. -/
theorem Stmt.outline_relabel (r : Relabeling) :
    ∀ s : Stmt, (s.relabel r).outline = s.outline.relabel r
  | .expression expr => by
    simp [Stmt.relabel, Stmt.outline, Outline.relabel, Expr.outline_relabel]
  | .function name params body => by
    simp only [Stmt.relabel, Stmt.outline, Outline.relabel, Stmt.outlines_relabel r body,
      Option.map_some]
  | .conditional cond thenBranch none => by
    simp [Stmt.relabel, Stmt.outline, Outline.relabel, Expr.outline_relabel,
      Stmt.outline_relabel r thenBranch]
  | .conditional cond thenBranch (some elseBranch) => by
    simp [Stmt.relabel, Stmt.outline, Outline.relabel, Expr.outline_relabel,
      Stmt.outline_relabel r thenBranch, Stmt.outline_relabel r elseBranch]
  | .returned keyword value => by
    cases value <;> simp [Stmt.relabel, Stmt.outline, Outline.relabel, Expr.outline_relabel]
  | .declared name initial => by
    cases initial <;> simp [Stmt.relabel, Stmt.outline, Outline.relabel, Expr.outline_relabel]
  | .loop cond body => by
    simp [Stmt.relabel, Stmt.outline, Outline.relabel, Expr.outline_relabel,
      Stmt.outline_relabel r body]
  | .block statements => by
    simp only [Stmt.relabel, Stmt.outline, Outline.relabel, Stmt.outlines_relabel r statements,
      Option.map_none]

/-- The outlines of relabeled statements are relabeled with them. -/
theorem Stmt.outlines_relabel (r : Relabeling) :
    ∀ ss : List Stmt, Stmt.outlines (Stmt.relabelAll r ss) =
      Outline.relabelAll r (Stmt.outlines ss)
  | [] => rfl
  | s :: ss => by
    simp only [Stmt.relabelAll, Stmt.outlines, Outline.relabelAll, Stmt.outline_relabel r s,
      Stmt.outlines_relabel r ss]

end

end Moonbridge
