import Moonbridge.Proofs.Grammar.Phrase
import Moonbridge.Proofs.Token.Spelling
import Moonbridge.Proofs.Tree.Parts

/-!
# What the trees of a source look like

The grammar lets an assignment stand only where nothing binds to it: it is no operand, no
callee and no table of an index. Names are words, the only sign is the minus, and number
literals are not negative. All parts of the trees of a source have these properties.
-/

namespace Moonbridge

namespace Expr

/-- Whether an expression is an assignment. -/
def isAssignment : Expr → Bool
  | assign _ _ => true
  | _ => false

/-- An expression that a source can have, as far as its topmost node shows. -/
def Regular : Expr → Prop
  | binary left _ right => left.isAssignment = false ∧ right.isAssignment = false
  | unary op operand => op.lexeme = "-" ∧ operand.isAssignment = false
  | name token => Lexer.IsWord token.lexeme.toList
  | assign target _ => Lexer.IsWord target.lexeme.toList
  | call callee _ _ => callee.isAssignment = false
  | index indexed _ => indexed.isAssignment = false
  | literal (.number x) => x.negative = false ∧ x.isNaN = false
  | literal _ | grouping _ | table _ => True

/-- An expression all of whose parts are ones that a source can have. -/
def Spelled (e : Expr) : Prop := ∀ p ∈ e.parts, p.Regular

/-- Whatever is a part of an expression that a source can have is one itself. -/
theorem Spelled.part {e p : Expr} (h : e.Spelled) (hp : p ∈ e.parts) : p.Spelled :=
  fun _ hq => h _ (Expr.parts_trans hq hp)

variable {left right inner operand value callee table key : Expr} {op : Operator}
  {token : Token} {args : List Expr} {entries : List Entry}

@[simp] theorem spelled_binary : (binary left op right).Spelled ↔
    (left.isAssignment = false ∧ right.isAssignment = false) ∧ left.Spelled ∧ right.Spelled := by
  simp [Spelled, parts, Regular, or_imp, forall_and]

@[simp] theorem spelled_grouping : (grouping inner).Spelled ↔ inner.Spelled := by
  simp [Spelled, parts, Regular]

@[simp] theorem spelled_literal {value : Literal} :
    (literal value).Spelled ↔ (literal value).Regular := by
  simp [Spelled, parts]

@[simp] theorem spelled_unary : (unary token operand).Spelled ↔
    (token.lexeme = "-" ∧ operand.isAssignment = false) ∧ operand.Spelled := by
  simp [Spelled, parts, Regular]

@[simp] theorem spelled_name : (name token).Spelled ↔ Lexer.IsWord token.lexeme.toList := by
  simp [Spelled, parts, Regular]

@[simp] theorem spelled_assign : (assign token value).Spelled ↔
    Lexer.IsWord token.lexeme.toList ∧ value.Spelled := by
  simp [Spelled, parts, Regular]

@[simp] theorem spelled_call : (call callee token args).Spelled ↔
    callee.isAssignment = false ∧ callee.Spelled ∧ ∀ e ∈ args, e.Spelled := by
  simp only [Spelled, parts, Regular, List.mem_cons, List.mem_append, mem_partsOfAll, or_imp,
    forall_and, forall_eq]
  grind

@[simp] theorem spelled_index : (index table key).Spelled ↔
    table.isAssignment = false ∧ table.Spelled ∧ key.Spelled := by
  simp [Spelled, parts, Regular, or_imp, forall_and]

end Expr

/-- A table entry all of whose parts are ones that a source can have. -/
def Entry.Spelled (e : Entry) : Prop := ∀ p ∈ e.parts, p.Regular

@[simp] theorem Entry.spelled_positional {value : Expr} :
    (Entry.positional value).Spelled ↔ value.Spelled := Iff.rfl

@[simp] theorem Entry.spelled_keyed {key value : Expr} :
    (Entry.keyed key value).Spelled ↔ key.Spelled ∧ value.Spelled := by
  simp [Entry.Spelled, Expr.Spelled, Entry.parts, or_imp, forall_and]

@[simp] theorem Expr.spelled_table {entries : List Entry} :
    (Expr.table entries).Spelled ↔ ∀ e ∈ entries, e.Spelled := by
  simp only [Expr.Spelled, Entry.Spelled, Expr.parts, Expr.Regular, List.mem_cons,
    Entry.mem_partsOfAll, or_imp, forall_and, forall_eq]
  grind

namespace Grammar

/-- What a category says about the trees of its phrases. Only an expression may be an
assignment. -/
def Category.Spelled : (c : Category) → c.Tree → Prop
  | .primary, e | .call, e | .tier _, e => e.isAssignment = false ∧ e.Spelled
  | .expression, e => e.Spelled
  | .arguments, es => ∀ e ∈ es, e.Spelled
  | .entry, e => e.Spelled
  | .fields, es => ∀ e ∈ es, e.Spelled
  | .parameters, _ => True
  | .statement, s | .declaration, s => ∀ e ∈ s.expressions, e.Spelled
  | .declarations, ss => ∀ s ∈ ss, ∀ e ∈ s.expressions, e.Spelled

/-- The names that what a phrase of a category stands for declares. -/
def Category.names : (c : Category) → c.Tree → List Token
  | .parameters, (ts : List Token) => ts
  | .statement, (s : Stmt) | .declaration, s => s.names
  | .declarations, (ss : List Stmt) => Stmt.namesOfAll ss
  | _, _ => []

namespace Phrase

/-- The names that a phrase declares are identifiers of the phrase. -/
theorem names_subset {c : Category} (d : Phrase c) :
    ∀ t ∈ c.names d.tree, t ∈ d.tokens ∧ t.kind = .identifier := by
  induction d with
  | _ =>
    simp only [Category.names, tree, tokens, Stmt.names, Stmt.namesOfAll,
      Stmt.namesOfAll_append] at *
    grind

/-- An assignment is spelled if its sides are. -/
theorem spelled_assignedTree {target value : Expr} (ht : target.Spelled) (hv : value.Spelled) :
    (assignedTree target value).Spelled := by
  unfold assignedTree
  split
  · rename_i token
    exact Expr.spelled_assign.mpr ⟨Expr.spelled_name.mp ht, hv⟩
  · exact ht

/-- A literal of a well-spelled token can stand in a source. -/
theorem regular_literal {t : Token} (ht : t.WellSpelled)
    (hk : t.kind = .number ∨ t.kind = .string) : (Expr.literal t.literal).Regular := by
  unfold Token.WellSpelled at ht
  rcases hk with hk | hk
  · rw [hk] at ht
    obtain ⟨x, hx, hregular⟩ := ht
    rw [hx]
    exact hregular
  · rw [hk] at ht
    obtain ⟨value, hvalue⟩ := ht
    rw [hvalue]
    trivial

/-- What holds of a list and of one more holds of the list with that one behind it. -/
theorem forall_concat {α : Type} {P : α → Prop} {xs : List α} {x : α} (hxs : ∀ y ∈ xs, P y)
    (hx : P x) : ∀ y ∈ xs ++ [x], P y := by
  intro y hy
  rcases List.mem_append.mp hy with hy | hy
  · exact hxs y hy
  · exact List.mem_singleton.mp hy ▸ hx

/-- The trees of well-spelled tokens are ones that a source can have. -/
theorem spelled {c : Category} (d : Phrase c) (h : ∀ t ∈ d.tokens, t.WellSpelled) :
    c.Spelled d.tree := by
  induction d with
  | literal t ht =>
    have hregular := regular_literal (h t (by simp [tokens])) ht
    exact ⟨rfl, Expr.spelled_literal.mpr hregular⟩
  | nil t => exact ⟨rfl, Expr.spelled_literal.mpr trivial⟩
  | name t =>
    have ht := h t.1 (by simp [tokens])
    simp only [Token.WellSpelled, t.2] at ht
    exact ⟨rfl, Expr.spelled_name.mpr ht⟩
  | table o fs c ih =>
    exact ⟨rfl, Expr.spelled_table.mpr (ih fun t ht => h t (by simp [tokens, ht]))⟩
  | tableLast o fs e c ihs ih =>
    have hfs := ihs fun t ht => h t (by simp [tokens, ht])
    have he := ih fun t ht => h t (by simp [tokens, ht])
    exact ⟨rfl, Expr.spelled_table.mpr (forall_concat hfs he)⟩
  | grouping o e c ih =>
    exact ⟨rfl, Expr.spelled_grouping.mpr (ih fun t ht => h t (by simp [tokens, ht]))⟩
  | noFields => exact fun e he => absurd he (by simp [tree])
  | moreFields fs e c ihs ih =>
    exact forall_concat (ihs fun t ht => h t (by simp [tokens, ht]))
      (ih fun t ht => h t (by simp [tokens, ht]))
  | positional e ih => exact Entry.spelled_positional.mpr (ih h)
  | named t q e ih =>
    have he := ih fun t ht => h t (by simp [tokens, ht])
    exact Entry.spelled_keyed.mpr ⟨Expr.spelled_literal.mpr trivial, he⟩
  | keyed o k c q e ihk ihe =>
    have hk := ihk fun t ht => h t (by simp [tokens, ht])
    have he := ihe fun t ht => h t (by simp [tokens, ht])
    exact Entry.spelled_keyed.mpr ⟨hk, he⟩
  | single p ih => exact ih h
  | called f o c ih =>
    have hf := ih fun t ht => h t (by simp [tokens, ht])
    exact ⟨rfl, Expr.spelled_call.mpr ⟨hf.1, hf.2, by simp⟩⟩
  | calledWith f o as c ihf iha =>
    have hf := ihf fun t ht => h t (by simp [tokens, ht])
    have has := iha fun t ht => h t (by simp [tokens, ht])
    exact ⟨rfl, Expr.spelled_call.mpr ⟨hf.1, hf.2, has⟩⟩
  | field e d t ih =>
    have he := ih fun t ht => h t (by simp [tokens, ht])
    exact ⟨rfl, Expr.spelled_index.mpr ⟨he.1, he.2, Expr.spelled_literal.mpr trivial⟩⟩
  | index e o k c ihe ihk =>
    have he := ihe fun t ht => h t (by simp [tokens, ht])
    have hk := ihk fun t ht => h t (by simp [tokens, ht])
    exact ⟨rfl, Expr.spelled_index.mpr ⟨he.1, he.2, hk⟩⟩
  | argument e ih =>
    have he := ih h
    exact fun e' he' => List.mem_singleton.mp he' ▸ he
  | moreArguments as c e iha ihe =>
    exact forall_concat (iha fun t ht => h t (by simp [tokens, ht]))
      (ihe fun t ht => h t (by simp [tokens, ht]))
  | unsigned e ih => exact ih h
  | negated m e ih =>
    have hm := h m.1 (by simp [tokens])
    simp only [Token.WellSpelled, m.2] at hm
    have he := ih fun t ht => h t (by simp [tokens, ht])
    exact ⟨rfl, Expr.spelled_unary.mpr ⟨⟨hm, he.1⟩, he.2⟩⟩
  | operand e ih => exact ih h
  | joined l op hop r ihl ihr =>
    have hl := ihl fun t ht => h t (by simp [tokens, ht])
    have hr := ihr fun t ht => h t (by simp [tokens, ht])
    exact ⟨rfl, Expr.spelled_binary.mpr ⟨⟨hl.1, hr.1⟩, hl.2, hr.2⟩⟩
  | value e ih => exact (ih h).2
  | assigned t q e iht ihe =>
    have ht := iht fun t ht => h t (by simp [tokens, ht])
    have he := ihe fun t ht => h t (by simp [tokens, ht])
    exact spelled_assignedTree ht.2 he
  | parameter t => trivial
  | moreParameters ps c t ih => trivial
  | conditional i e t s d ihe ihs =>
    have he := ihe fun t ht => h t (by simp [tokens, ht])
    have hs := ihs fun t ht => h t (by simp [tokens, ht])
    exact List.forall_mem_cons.mpr ⟨he, hs⟩
  | alternative i e t s l r d ihe ihs ihr =>
    have he := ihe fun t ht => h t (by simp [tokens, ht])
    have hs := ihs fun t ht => h t (by simp [tokens, ht])
    have hr := ihr fun t ht => h t (by simp [tokens, ht])
    exact List.forall_mem_cons.mpr ⟨he, List.forall_mem_append.mpr ⟨hs, hr⟩⟩
  | loop w e t s d ihe ihs =>
    have he := ihe fun t ht => h t (by simp [tokens, ht])
    have hs := ihs fun t ht => h t (by simp [tokens, ht])
    exact List.forall_mem_cons.mpr ⟨he, hs⟩
  | block o ds c ih =>
    exact Stmt.forall_expressionsOfAll.mpr (ih fun t ht => h t (by simp [tokens, ht]))
  | returned k s => exact fun e he => absurd he (by simp [tree, Stmt.expressions])
  | returnedValue k e s ih =>
    have he := ih fun t ht => h t (by simp [tokens, ht])
    exact fun e' he' => List.mem_singleton.mp he' ▸ he
  | expressed e s ih =>
    have he := ih fun t ht => h t (by simp [tokens, ht])
    exact fun e' he' => List.mem_singleton.mp he' ▸ he
  | procedure k n o c ds d ih =>
    exact Stmt.forall_expressionsOfAll.mpr (ih fun t ht => h t (by simp [tokens, ht]))
  | function k n o ps c ds d ihp ih =>
    exact Stmt.forall_expressionsOfAll.mpr (ih fun t ht => h t (by simp [tokens, ht]))
  | declared k n s => exact fun e he => absurd he (by simp [tree, Stmt.expressions])
  | initialized k n q e s ih =>
    have he := ih fun t ht => h t (by simp [tokens, ht])
    exact fun e' he' => List.mem_singleton.mp he' ▸ he
  | stated s ih => exact ih h
  | noDeclarations => exact fun s hs => absurd hs (by simp [tree])
  | moreDeclarations ds d ihs ih =>
    exact forall_concat (ihs fun t ht => h t (by simp [tokens, ht]))
      (ih fun t ht => h t (by simp [tokens, ht]))

end Phrase

end Grammar

end Moonbridge
