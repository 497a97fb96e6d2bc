import Moonbridge.Proofs.Grammar.First
import Moonbridge.Proofs.Tree.Height

/-!
# Where the tokens of errors and trees come from

The errors of a phrase are located at tokens of the phrase, and the tokens that its tree keeps
are tokens of the phrase. Hence a report about the height of a declaration, which takes its
token from the tree, points into the declaration.
-/

namespace Moonbridge.Grammar

open Outline (allMarks)

section Outlines

/-- The outlines of joined lists of expressions are joined. -/
theorem exprOutlines_append (es fs : List Expr) :
    Expr.outlines (es ++ fs) = Expr.outlines es ++ Expr.outlines fs := by
  induction es with
  | nil => rfl
  | cons e es ih => simp [Expr.outlines, ih]

theorem entryOutlines_append (es fs : List Entry) :
    Entry.outlines (es ++ fs) = Entry.outlines es ++ Entry.outlines fs := by
  induction es with
  | nil => rfl
  | cons e es ih => simp [Entry.outlines, ih]

theorem stmtOutlines_append (ss ts : List Stmt) :
    Stmt.outlines (ss ++ ts) = Stmt.outlines ss ++ Stmt.outlines ts := by
  induction ss with
  | nil => rfl
  | cons s ss ih => simp [Stmt.outlines, ih]

/-- The marks of joined lists of outlines are joined. -/
theorem allMarks_append (os ps : List Outline) :
    allMarks (os ++ ps) = allMarks os ++ allMarks ps := by
  induction os with
  | nil => rfl
  | cons o os ih => simp [allMarks, ih]

end Outlines

/-- The tokens that the outline of a tree shows. -/
def Category.marks : (c : Category) → c.Tree → List Token
  | primary, (e : Expr) => e.outline.marks
  | call, (e : Expr) => e.outline.marks
  | tier _, (e : Expr) => e.outline.marks
  | expression, (e : Expr) => e.outline.marks
  | arguments, (es : List Expr) => allMarks (Expr.outlines es)
  | entry, (e : Entry) => e.outline.marks
  | fields, (es : List Entry) => allMarks (Entry.outlines es)
  | parameters, _ => []
  | statement, (s : Stmt) => s.outline.marks
  | declaration, (s : Stmt) => s.outline.marks
  | declarations, (ss : List Stmt) => allMarks (Stmt.outlines ss)

namespace Phrase

/-- An assignment keeps the tokens of its target, and of its value at most. -/
theorem marks_assignedTree {target value : Expr} {t : Token}
    (h : t ∈ (assignedTree target value).outline.marks) :
    t ∈ target.outline.marks ∨ t ∈ value.outline.marks := by
  unfold assignedTree at h
  cases target with
  | name u => simpa [Expr.outline, Outline.marks, allMarks] using h
  | _ => exact Or.inl h

/-- The tokens of a tree are tokens of its phrase. -/
theorem marks_subset {c : Category} (d : Phrase c) : ∀ t ∈ c.marks d.tree, t ∈ d.tokens := by
  induction d with
  | assigned target equals value iht ihv =>
    intro t ht
    rcases marks_assignedTree ht with ht | ht
    · exact List.mem_append_left _ (iht t ht)
    · exact List.mem_append_right _ (List.mem_cons_of_mem _ (ihv t ht))
  | _ =>
    simp only [Category.marks, tree, tokens, Expr.outline, Entry.outline, Stmt.outline,
      Expr.outlines, Entry.outlines, Stmt.outlines, Outline.marks, allMarks, exprOutlines_append,
      entryOutlines_append, stmtOutlines_append, allMarks_append, Option.map_none, Option.map_some,
      Option.toList_none, Option.toList_some] at *
    grind

/-- A surplus item is reported at one of its tokens. -/
theorem mem_surplus {what : String} {count : Nat} {ts : List Token} {e : ParseError}
    (h : e ∈ surplus what count ts) : e.token ∈ ts := by
  unfold surplus at h
  split at h
  · obtain ⟨t, ht, rfl⟩ := List.mem_map.mp h
    exact List.mem_of_mem_take ht
  · cases h

/-- An assignment to no name is reported at its equals sign. -/
theorem mem_mistarget {target : Expr} {equals : Token} {e : ParseError}
    (h : e ∈ mistarget target equals) : e.token = equals := by
  unfold mistarget at h
  split at h
  · cases h
  · obtain rfl := List.mem_singleton.mp h
    rfl

/-- The errors of a phrase are located at its tokens. -/
theorem errors_located {c : Category} (d : Phrase c) : ∀ e ∈ d.errors, e.token ∈ d.tokens := by
  induction d with
  | moreArguments as comma value iha ihv =>
    intro e he
    simp only [errors, tokens, List.mem_append, List.mem_cons] at he ⊢
    rcases he with (he | he) | he
    · exact Or.inl (iha e he)
    · exact Or.inr (Or.inr (mem_surplus he))
    · exact Or.inr (Or.inr (ihv e he))
  | moreParameters ps comma name ih =>
    intro e he
    simp only [errors, tokens, List.mem_append] at he ⊢
    rcases he with he | he
    · exact Or.inl (ih e he)
    · exact Or.inr (List.mem_cons_of_mem _ (mem_surplus he))
  | assigned target equals value iht ihv =>
    intro e he
    simp only [errors, tokens, List.mem_append, List.mem_cons] at he ⊢
    rcases he with (he | he) | he
    · exact Or.inl (iht e he)
    · exact Or.inr (Or.inr (ihv e he))
    · exact Or.inr (Or.inl (mem_mistarget he))
  | _ =>
    simp only [errors, tokens] at *
    grind

end Phrase

end Moonbridge.Grammar
