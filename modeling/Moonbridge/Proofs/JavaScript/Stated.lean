import Mathlib.Data.List.TakeWhile
import Moonbridge.Proofs.Grammar.Genuine
import Moonbridge.Proofs.JavaScript.Indentation

/-!
# Expressions that are statements

A statement that starts with a brace is read as a block, so the expression of a statement starts
with another token. Calls, indexes and assignments start with the tokens of their leftmost part, and
so does their code. So the code of a statement's expression starts neither with a brace, as a block
would, nor with the word `function`, which is no identifier.
-/

namespace Moonbridge

/-- The part of an expression that its code starts with: what is called, indexed or assigned to,
down to an expression that is none of these. -/
def Expr.leftmost : Expr → Expr
  | .call callee _ _ => callee.leftmost
  | .index indexed _ => indexed.leftmost
  | .assign target _ => .name target
  | other => other

namespace Grammar

open Phrase (assignedTree StartsAsBlock)

/-- How tokens start that an expression is read from: with a brace if its leftmost part is a table,
and with the identifier itself if it is a name. -/
structure LedBy (e : Expr) (ts : List Token) : Prop where
  table : ∀ entries, e.leftmost = .table entries → StartsAsBlock ts
  name : ∀ t, e.leftmost = .name t → t ∈ ts.head? ∧ t.kind = .identifier

section LedBy

variable {e e' : Expr} {ts : List Token}

/-- What leads a statement is found at its front, whatever follows. -/
theorem LedBy.append (h : LedBy e ts) (us : List Token) : LedBy e (ts ++ us) where
  table entries heq := by
    obtain ⟨brace, rest, rfl, hbrace⟩ := h.table entries heq
    exact ⟨brace, rest ++ us, rfl, hbrace⟩
  name t heq := (h.name t heq).imp_left List.mem_head?_append_of_mem_head?

/-- Only the leftmost part matters. -/
theorem LedBy.of_leftmost_eq (h : LedBy e ts) (heq : e'.leftmost = e.leftmost) : LedBy e' ts where
  table := heq ▸ h.table
  name := heq ▸ h.name

/-- An assignment begins with its target, accepted or not. -/
theorem leftmost_assignedTree (target value : Expr) :
    (assignedTree target value).leftmost = target.leftmost := by
  unfold assignedTree
  split
  · rfl
  · rfl

end LedBy

/-- How the tokens of a category's phrases start, as far as they stand for expressions. -/
def Category.Led : (c : Category) → c.Tree → List Token → Prop
  | .primary, (e : Expr), ts | .call, e, ts | .tier _, e, ts | .expression, e, ts => LedBy e ts
  | _, _, _ => True

/-- The statements that what a phrase of a category stands for consists of. -/
def Category.stmts : (c : Category) → c.Tree → List Stmt
  | .statement, (s : Stmt) | .declaration, s => s.parts
  | .declarations, (ss : List Stmt) => Stmt.partsOfAll ss
  | _, _ => []

namespace Phrase

/-- A phrase starts with the tokens of its leftmost part. -/
theorem led {c : Category} (d : Phrase c) : c.Led d.tree d.tokens := by
  induction d with
  | name t => exact ⟨by simp [tree, Expr.leftmost], by simp [tree, tokens, Expr.leftmost, t.2]⟩
  | table opened fields closed _ =>
    exact ⟨fun entries _ => ⟨opened.1, _, rfl, opened.2⟩, by simp [tree, Expr.leftmost]⟩
  | tableLast opened fields last closed _ _ =>
    exact ⟨fun entries _ => ⟨opened.1, _, rfl, opened.2⟩, by simp [tree, Expr.leftmost]⟩
  | literal _ _ | nil _ | grouping _ _ _ _ | negated _ _ _ | joined _ _ _ _ _ _ =>
    exact ⟨by simp [tree, Expr.leftmost], by simp [tree, Expr.leftmost]⟩
  | single primary ih => exact ih
  | called callee opened closed ih => exact (ih.append _).of_leftmost_eq rfl
  | calledWith callee opened args closed ih _ =>
    exact ((ih.append _).append _).of_leftmost_eq rfl
  | field table dot name ih => exact (ih.append _).of_leftmost_eq rfl
  | index table opened key closed ih _ => exact ((ih.append _).append _).of_leftmost_eq rfl
  | unsigned call ih => exact ih
  | operand only ih => exact ih
  | value only ih => exact ih
  | assigned target equals value ih _ =>
    exact (ih.append _).of_leftmost_eq (leftmost_assignedTree target.tree value.tree)
  | _ => trivial

/-- An expression that is a statement within a clear phrase is derived from tokens of the phrase,
and does not start as a block. -/
theorem exists_expressed {c : Category} (d : Phrase c) (hclear : d.Clear) {e : Expr}
    (he : .expression e ∈ c.stmts d.tree) :
    ∃ p : Phrase .expression, p.tree = e ∧ ¬ StartsAsBlock p.tokens ∧
      ∀ t ∈ p.tokens, t ∈ d.tokens := by
  induction d with
  | expressed expr semicolon _ =>
    simp only [Category.stmts, tree, Stmt.parts, List.mem_singleton, Stmt.expression.injEq] at he
    exact ⟨expr, he.symm, hclear.1, fun t ht => by simp [tokens, ht]⟩
  | _ =>
    -- In all other phrases the statement stands within a part.
    simp only [Category.stmts, tree, tokens, Stmt.parts, Stmt.partsOfAll, Stmt.partsOfAll_append,
      Clear] at *
    grind

end Phrase

end Grammar

namespace JavaScript

open Lexeme
open Text (Stops takeWhile_append_of_stops)

/-- A text that starts neither with a brace nor with the word `function`. -/
structure Apart (text : List Char) : Prop where
  brace : text.head? ≠ some '\x7b'
  word : text.takeWhile isWordPart ≠ "function".toList

section Apart

variable {text suffix : List Char}

/-- A text that starts with neither a brace nor a part of a word. -/
theorem apart_cons {c : Char} (hbrace : c ≠ '\x7b') (hword : isWordPart c = false)
    (rest : List Char) : Apart (c :: rest) :=
  ⟨by simpa using hbrace, by simp [hword]⟩

/-- What follows an expression does not change how it starts. -/
theorem Apart.append (h : Apart text) (hsuffix : ∀ c ∈ suffix.head?, c ∈ ['(', '[', '.', ' ']) :
    Apart (text ++ suffix) := by
  have hfollows : ∀ c ∈ ['(', '[', '.', ' '], c ≠ '\x7b' ∧ isWordPart c = false := by
    simp [isWordPart, isWordStart]
  have hstops : Stops isWordPart suffix := fun c hc => (hfollows c (hsuffix c hc)).2
  constructor
  · cases text with
    | nil => exact fun hbrace => (hfollows _ (hsuffix _ hbrace)).1 rfl
    | cons c rest => exact h.brace
  · rw [takeWhile_append_of_stops text hstops]
    exact h.word

/-- A word opens no block and, unless it is the keyword, no function. -/
theorem apart_word {name : String} (hword : IsWord name.toList) (hname : name ≠ "function") :
    Apart name.toList := by
  constructor
  · obtain ⟨c, hc, hstart⟩ := hword.start
    intro hbrace
    obtain rfl : c = '\x7b' := by simpa [hbrace] using hc.symm
    exact absurd hstart (by decide)
  · rw [List.takeWhile_eq_self_iff.mpr hword.parts]
    exact fun heq => hname (String.toList_injective heq)

/-- A number without a sign opens neither a block nor a function. -/
theorem apart_number {x : Double} (hsign : x.negative = false) (hnan : x.isNaN = false) :
    Apart (number x).toList := by
  obtain ⟨c, hc, hstart⟩ := head_number hsign hnan
  have hother : ∀ d ∈ ['\x7b', 'f'], ¬ (d.isDigit = true ∨ d = 'I') := by simp [Char.isDigit]
  constructor
  · intro hbrace
    obtain rfl : c = '\x7b' := by simpa [hbrace] using hc.symm
    exact hother _ (by simp) hstart
  · intro hword
    have hhead := congrArg List.head? hword
    rw [List.head?_takeWhile, Option.mem_def.mp hc] at hhead
    obtain ⟨rfl, -⟩ : c = 'f' ∧ isWordPart 'f' = true := by simpa using hhead
    exact hother _ (by simp) hstart

end Apart

section Code

/-- The code of an expression is apart from blocks and declarations, if its leftmost part is neither
a table nor the name `function`. -/
theorem apart_expression : ∀ {e : Expr}, e.Spelled → (∀ entries, e.leftmost ≠ .table entries) →
    (∀ t, e.leftmost = .name t → t.lexeme ≠ "function") → Apart (expression e).toList
  | .binary left op right, _, _, _ => by
    simpa [expression] using apart_cons (by decide) (by decide) _
  | .grouping inner, _, _, _ => by
    simpa [expression] using apart_cons (by decide) (by decide) _
  | .unary op operand, _, _, _ => by
    simpa [expression] using apart_cons (by decide) (by decide) _
  | .literal .nil, _, _, _ => ⟨by decide, by decide⟩
  | .literal (.text value), _, _, _ => by
    simpa [expression, literal, stringLiteral] using apart_cons (by decide) (by decide) _
  | .literal (.number x), he, _, _ => by
    have hregular := Expr.spelled_literal.mp he
    exact apart_number hregular.1 hregular.2
  | .name token, he, _, hname =>
    apart_word (isWord_of_lexer (Expr.spelled_name.mp he)) (hname token rfl)
  | .assign target value, he, _, hname => by
    have hword := isWord_of_lexer (Expr.spelled_assign.mp he).1
    have htext : (expression (.assign target value)).toList =
        target.lexeme.toList ++ (" = " ++ expression value).toList := by
      simp [expression]
    rw [htext]
    exact (apart_word hword (hname target rfl)).append (by simp)
  | .call callee paren args, he, htable, hname => by
    have hcallee := apart_expression (Expr.spelled_call.mp he).2.1 htable hname
    have htarget : Apart (callTarget callee (expression callee)).toList := by
      unfold callTarget
      split
      · split
        · exact ⟨by decide, by decide⟩
        · exact hcallee
      · exact hcallee
    have htext : (expression (.call callee paren args)).toList =
        (callTarget callee (expression callee)).toList ++
          ("(" ++ ", ".intercalate (expressions args) ++ ")").toList := by
      simp [expression]
    rw [htext]
    exact htarget.append (by simp)
  | .table entries, _, htable, _ => absurd rfl (htable entries)
  | .index table key, he, htable, hname => by
    have htarget : Apart (indexTarget table (expression table)).toList := by
      have hplain := apart_expression (Expr.spelled_index.mp he).2.1 htable hname
      unfold indexTarget
      split
      · simpa using apart_cons (by decide) (by decide) _
      · exact hplain
    rw [expression, String.toList_append]
    refine htarget.append fun c hc => ?_
    have hhead := head_suffix key (expression key) []
    rw [List.append_nil] at hhead
    rcases hhead with hhead | hhead
    · obtain rfl : '.' = c := by simpa [hhead] using hc
      decide
    · obtain rfl : '[' = c := by simpa [hhead] using hc
      decide

end Code

/-- The code of an expression that is a statement, at any depth of a source's program, is taken
neither for a block nor for a declaration of a function: it starts neither with a brace nor with the
word `function`. No table is its leftmost part. -/
theorem stated_apart {source : String} {program : Program} (h : programOf source = .ok program)
    {e : Expr} (he : .expression e ∈ Stmt.partsOfAll program) :
    (expression e).toList.head? ≠ some '\x7b' ∧
      (expression e).toList.takeWhile isWordPart ≠ "function".toList ∧
      ∀ entries, e.leftmost ≠ .table entries := by
  obtain ⟨tokens, htokens, hparse⟩ := programOf_eq_ok_iff.mp h
  obtain ⟨ds, rfl, haccepted, hds⟩ := declarations_of_parse hparse
  obtain ⟨s, hs, hstated⟩ := Stmt.mem_partsOfAll.mp he
  obtain ⟨d, hd, rfl⟩ := List.mem_map.mp hs
  obtain ⟨p, rfl, hblock, hsubset⟩ := d.exists_expressed (haccepted d hd).clear hstated
  -- The tokens of the expression tell its leftmost part, and they do not start with a brace.
  have hled := p.led
  have hmem : ∀ t ∈ p.tokens, t ∈ tokens ∧ t.isEnd = false :=
    fun t ht => hds d hd t (hsubset t ht)
  have hspelled : p.tree.Spelled :=
    p.spelled fun t ht => wellSpelled_of_tokenize htokens t (hmem t ht).1
  have htable : ∀ entries, p.tree.leftmost ≠ .table entries :=
    fun entries heq => hblock (hled.table entries heq)
  have hname : ∀ t, p.tree.leftmost = .name t → t.lexeme ≠ "function" := by
    intro t heq hfunction
    obtain ⟨ht, hkind⟩ := hled.name t heq
    obtain ⟨hmem, hend⟩ := hmem t (List.mem_of_mem_head? ht)
    have hgenuine := genuine_of_tokenize htokens hmem hend
    exact hgenuine.unlisted hkind .functionKeyword (by rw [hfunction]; decide)
  have hapart := apart_expression hspelled htable hname
  exact ⟨hapart.brace, hapart.word, htable⟩

/-- The assignment in the loop of the sample starts with the name that is assigned to. -/
theorem stated_apart_assigned :
    programOf "while x do \x7b \x7b \x7d y = \"a\nb\"; \x7d end" = .ok [sampleStmt] ∧
      .expression sampleAssignment ∈ Stmt.partsOfAll [sampleStmt] ∧
      (expression sampleAssignment).toList.head? ≠ some '\x7b' ∧
      (expression sampleAssignment).toList.takeWhile isWordPart ≠ "function".toList ∧
      ∀ entries, sampleAssignment.leftmost ≠ .table entries := by
  have hmem : .expression sampleAssignment ∈ Stmt.partsOfAll [sampleStmt] := by
    simp [sampleStmt, Stmt.partsOfAll, Stmt.parts]
  exact ⟨programOf_sampleLoop, hmem, stated_apart programOf_sampleLoop hmem⟩

end JavaScript

end Moonbridge
