import Moonbridge.Proofs.JavaScript.Accessor
import Moonbridge.Proofs.JavaScript.Composed

/-!
# Balanced delimiters

A scanner goes through a code from left to right and keeps the brackets that are still to be closed.
Within double quotes it looks only for the closing quote, which no backslash stands in front of. A
piece of code is neutral if the scanner passes it from any state outside literals and is left in
the same state. All pieces that code is composed of are neutral, and indenting a code is hidden
from the scanner, so the code of every source is balanced.
-/

namespace Moonbridge.JavaScript

section Scanner

/-- Where a scanner stands: outside literals, in one, or behind a backslash in one. -/
inductive Place
  | code | literal | escape
  deriving DecidableEq, Repr

/-- The state of a scanner: where it stands, and the brackets it expects to close those that are
open, the innermost first. -/
structure Scanner where
  place : Place
  closers : List Char
  deriving DecidableEq, Repr

/-- The bracket that closes an opening one. -/
def closer? : Char → Option Char
  | '(' => some ')'
  | '[' => some ']'
  | '\x7b' => some '\x7d'
  | _ => none

/-- What a scanner makes of a character. It fails at a closing bracket that is not expected. -/
def Scanner.step (s : Scanner) (c : Char) : Option Scanner :=
  match s.place with
  | .escape => some { s with place := .literal }
  | .literal =>
    if c = '\\' then some { s with place := .escape }
    else if c = '"' then some { s with place := .code }
    else some s
  | .code =>
    if c = '"' then some { s with place := .literal }
    else match closer? c with
      | some closer => some { s with closers := closer :: s.closers }
      | none =>
        if c ∉ [')', ']', '\x7d'] then some s
        else if s.closers.head? = some c then some { s with closers := s.closers.tail }
        else none

/-- What a scanner makes of a text. -/
def Scanner.scan (s : Scanner) (text : List Char) : Option Scanner := text.foldlM Scanner.step s

/-- Code that a scanner passes from its start without anything left open. -/
def Balanced (code : String) : Prop :=
  Scanner.scan ⟨.code, []⟩ code.toList = some ⟨.code, []⟩

/-- Whether code is balanced is decided by scanning it. -/
instance (code : String) : Decidable (Balanced code) :=
  inferInstanceAs (Decidable (Scanner.scan ⟨.code, []⟩ code.toList = some ⟨.code, []⟩))

/-- Code that a scanner passes, wherever it stands outside literals, and that it leaves as it has
come. -/
def Neutral (code : String) : Prop :=
  ∀ closers, Scanner.scan ⟨.code, closers⟩ code.toList = some ⟨.code, closers⟩

end Scanner

namespace Scanner

variable {s : Scanner} {closers : List Char} {c : Char} {text text' : List Char}

theorem scan_cons : s.scan (c :: text) = (s.step c).bind (·.scan text) := rfl

/-- A text behind another one is scanned from where the other one has led. -/
theorem scan_append : s.scan (text ++ text') = (s.scan text).bind (·.scan text') :=
  List.foldlM_append

/-- The characters that matter outside literals. -/
def marks : List Char := ['(', ')', '[', ']', '\x7b', '\x7d', '"']

/-- Outside literals a character that is no mark changes nothing. -/
theorem step_unmarked (h : c ∉ marks) : step ⟨.code, closers⟩ c = some ⟨.code, closers⟩ := by
  simp only [marks, List.mem_cons, List.not_mem_nil, or_false, not_or] at h
  simp [step, closer?, h]

/-- Outside literals a text without marks changes nothing. -/
theorem scan_unmarked (h : ∀ c ∈ text, c ∉ marks) :
    scan ⟨.code, closers⟩ text = some ⟨.code, closers⟩ := by
  induction text with
  | nil => rfl
  | cons c text ih =>
    rw [List.forall_mem_cons] at h
    rw [scan_cons, step_unmarked h.1]
    exact ih h.2

/-- A character of a text stays within its literal. -/
theorem scan_escaped (c : Char) :
    scan ⟨.literal, closers⟩ (escaped c) = some ⟨.literal, closers⟩ := by
  obtain ⟨e, he, rfl, hchars⟩ | ⟨hchars, hmarks⟩ := escaped_cases c
  · rw [hchars]
    simp only [escapes, List.mem_cons, List.not_mem_nil, or_false] at he
    rcases he with rfl | rfl | rfl | rfl | rfl | rfl | rfl | rfl | rfl | rfl <;> rfl
  · simp only [literalMarks, List.mem_cons, not_or] at hmarks
    rw [hchars, scan_cons]
    simp [step, hmarks, scan]

/-- Whatever a text contains, only the last quote of its literal closes it. -/
theorem scan_literal (text : List Char) : scan ⟨.literal, closers⟩ (text.flatMap escaped) =
    some ⟨.literal, closers⟩ := by
  induction text with
  | nil => rfl
  | cons c text ih =>
    rw [List.flatMap_cons, scan_append, scan_escaped, Option.bind_some, ih]

/-- A space does not matter, unless it is escaped. -/
theorem step_space (h : s.place ≠ .escape) : s.step ' ' = some s := by
  cases hplace : s.place with
  | code => simp [step, hplace, closer?]
  | literal => simp [step, hplace]
  | escape => exact absurd hplace h

/-- Nothing is escaped behind a line break. -/
theorem step_feed (s : Scanner) : ∃ s', s.step '\n' = some s' ∧ s'.place ≠ .escape := by
  cases hplace : s.place with
  | code => exact ⟨s, by simp [step, hplace, closer?], by simp [hplace]⟩
  | literal => exact ⟨s, by simp [step, hplace], by simp [hplace]⟩
  | escape => exact ⟨⟨.literal, s.closers⟩, by simp [step, hplace], by simp⟩

/-- Indenting a text is hidden from the scanner: the spaces stand at the start or behind a line
break, where nothing is escaped. -/
theorem scan_indentFrom (fresh : Bool) (hfresh : fresh = true → s.place ≠ .escape) :
    s.scan (indentFrom fresh text) = s.scan text := by
  induction text generalizing s fresh with
  | nil => rfl
  | cons c text ih =>
    rw [indentFrom]
    split
    · rename_i hfeed
      obtain ⟨s', hstep, hplace⟩ := step_feed s
      rw [scan_cons, scan_cons, hfeed, hstep, Option.bind_some, Option.bind_some,
        ih true fun _ => hplace]
    · -- Within a line nothing is put in, so the state of the scanner does not matter.
      have hrest : s.scan (c :: indentFrom false text) = s.scan (c :: text) := by
        rw [scan_cons, scan_cons]
        congr 1
        funext s'
        exact ih false (by simp)
      split
      · rename_i hstart
        have hspace := step_space (hfresh hstart)
        rw [scan_cons, hspace, Option.bind_some, scan_cons, hspace, Option.bind_some, hrest]
      · exact hrest

end Scanner

section Neutral

open Scanner

variable {code code' : String}

/-- Code without marks is neutral. -/
theorem neutral_unmarked (h : ∀ c ∈ code.toList, c ∉ marks) : Neutral code :=
  fun _ => scan_unmarked h

/-- Neutral code behind neutral code is neutral. -/
theorem Neutral.append (h : Neutral code) (h' : Neutral code') : Neutral (code ++ code') := by
  intro closers
  rw [String.toList_append, scan_append, h closers, Option.bind_some, h' closers]

/-- A bracket is open until the one that closes it. -/
theorem scan_bracketPair {opening closing : String} (h : (opening, closing) ∈ bracketPairs) :
    ∃ closer, ∀ closers,
      scan ⟨.code, closers⟩ opening.toList = some ⟨.code, closer :: closers⟩ ∧
      scan ⟨.code, closer :: closers⟩ closing.toList = some ⟨.code, closers⟩ := by
  simp only [bracketPairs, List.mem_cons, Prod.mk.injEq, List.not_mem_nil, or_false] at h
  rcases h with ⟨rfl, rfl⟩ | ⟨rfl, rfl⟩ | ⟨rfl, rfl⟩
  · exact ⟨')', fun _ => ⟨rfl, rfl⟩⟩
  · exact ⟨']', fun _ => ⟨rfl, rfl⟩⟩
  · exact ⟨'\x7d', fun _ => ⟨rfl, rfl⟩⟩

/-- Brackets around neutral code that match are closed again. -/
theorem Neutral.enclosed {opening closing : String} (hpair : (opening, closing) ∈ bracketPairs)
    (h : Neutral code) : Neutral (opening ++ code ++ closing) := by
  intro closers
  obtain ⟨closer, hclosers⟩ := scan_bracketPair hpair
  obtain ⟨hopen, hclose⟩ := hclosers closers
  rw [String.toList_append, String.toList_append, scan_append, scan_append, hopen,
    Option.bind_some, h, Option.bind_some, hclose]

/-- Within a literal no bracket counts, and its last quote ends it. -/
theorem neutral_stringLiteral (value : String) : Neutral (stringLiteral value) := by
  intro closers
  have htext : (stringLiteral value).toList =
      '"' :: (value.toList.flatMap escaped ++ ['"']) := by
    simp [stringLiteral, escape, escapeChars_eq_flatMap]
  have hopen : step ⟨.code, closers⟩ '"' = some ⟨.literal, closers⟩ := rfl
  rw [htext, scan_cons, hopen, Option.bind_some, scan_append, scan_literal, Option.bind_some]
  rfl

/-- Being neutral passes from pieces of code to what is composed of them. -/
theorem composable_neutral : Composable Neutral where
  plain h := neutral_unmarked fun c hc hmark => h c hc (List.mem_append_left _ hmark)
  append := .append
  enclosed := .enclosed
  quoted := neutral_stringLiteral

private theorem neutral_feed : Neutral "\n" := neutral_unmarked (by simp [marks])

/-- A property name is neutral, with a line break behind it too. -/
theorem neutral_of_isPropertyName (h : isPropertyName code = true) : Neutral code := by
  have hname : ∀ {name : String}, IsName name → Neutral name :=
    fun hname => composable_neutral.plain (plain_of_isWord hname.isWord)
  rcases isPropertyName_iff.mp h with hplain | ⟨name, hbroken, rfl⟩
  · exact hname hplain
  · exact (hname hbroken).append neutral_feed

/-- Code stays neutral when it is indented. -/
theorem neutral_indent (h : Neutral code) : Neutral (indent code) := by
  intro closers
  rw [indent, String.toList_ofList, scan_indentFrom true (by simp), h]

/-- Code stays neutral in braces on lines of its own. -/
theorem neutral_braced (h : Neutral code) : Neutral (braced code) := by
  unfold braced
  split
  · exact composable_neutral.enclosed (by decide : ("\x7b", "\x7d") ∈ bracketPairs) neutral_feed
  · have htext : "\x7b\n" ++ indent code ++ "\n\x7d" =
        "\x7b" ++ ("\n" ++ indent code ++ "\n") ++ "\x7d" := by
      apply String.toList_injective
      simp
    rw [htext]
    exact .enclosed (by decide) ((neutral_feed.append (neutral_indent h)).append neutral_feed)

/-- Lines of neutral code are neutral. -/
theorem neutral_lines {codes : List String} (h : ∀ code ∈ codes, Neutral code) :
    Neutral (lines codes) :=
  composable_neutral.intercalate neutral_feed h

mutual

/-- The code of a statement is neutral. -/
theorem neutral_statement : ∀ s : Stmt, s.Writes Neutral → Neutral (statement s)
  | .expression _, h | .returned _ _, h | .declared _ _, h => composable_neutral.simple rfl h
  | .function name params body, h => by
    obtain ⟨hname, hparams, hbody⟩ := Stmt.writes_function.mp h
    rw [statement_function]
    exact (composable_neutral.functionHead hname hparams).append
      (neutral_braced (neutral_lines (neutral_statements body hbody)))
  | .conditional cond thenBranch none, h => by
    obtain ⟨hcond, hthen⟩ := Stmt.writes_conditional.mp h
    rw [statement_conditional]
    exact (composable_neutral.conditionHead (by decide) hcond).append
      (neutral_braced (neutral_statement thenBranch hthen))
  | .conditional cond thenBranch (some elseBranch), h => by
    obtain ⟨hcond, hthen, helse⟩ := Stmt.writes_conditional_else.mp h
    have hhead : Neutral (conditionHead "if" cond) :=
      composable_neutral.conditionHead (by decide) hcond
    have hfirst := hhead.append (neutral_braced (neutral_statement thenBranch hthen))
    rw [statement_conditional_else]
    exact (hfirst.append (composable_neutral.plain (by decide))).append
      (neutral_braced (neutral_statement elseBranch helse))
  | .loop cond body, h => by
    obtain ⟨hcond, hbody⟩ := Stmt.writes_loop.mp h
    rw [statement_loop]
    exact (composable_neutral.conditionHead (by decide) hcond).append
      (neutral_braced (neutral_statement body hbody))
  | .block body, h => neutral_lines (neutral_statements body (Stmt.writes_block.mp h))

/-- The code of each of several statements is neutral. -/
theorem neutral_statements : ∀ ss : List Stmt, (∀ s ∈ ss, s.Writes Neutral) →
    ∀ code ∈ statements ss, Neutral code
  | [], _ => by simp [statements]
  | s :: ss, h => by
    rw [List.forall_mem_cons] at h
    exact List.forall_mem_cons.mpr ⟨neutral_statement s h.1, neutral_statements ss h.2⟩

end

end Neutral

/-- The code of every source that is accepted is balanced: each literal in it is closed, and the
brackets outside literals are nested and closed. -/
theorem compile_balanced {source code : String} (h : compile source = .ok code) :
    Balanced code := by
  rw [compile_eq_map] at h
  cases hprogram : programOf source with
  | error e =>
    rw [hprogram] at h
    cases h
  | ok program =>
    rw [hprogram] at h
    obtain rfl := Except.ok.inj h
    have hwrites := writes_of_programOf hprogram (P := Neutral)
      fun table name _ hname => neutral_of_isPropertyName hname
    have hneutral : Neutral (JavaScript.program program) := by
      rw [JavaScript.program, ← statements_eq_map]
      exact neutral_lines (neutral_statements program hwrites)
    exact hneutral []

/-- Brackets and a backslash within literals do not count. -/
theorem compile_balanced_literal :
    compile "f(\"](\\\", g[\"\x7d\"]);" = .ok "f(\"](\\\\\", g[\"\x7d\"]);" ∧
      Balanced "f(\"](\\\\\", g[\"\x7d\"]);" := by
  have hcompile : compile "f(\"](\\\", g[\"\x7d\"]);" = .ok "f(\"](\\\\\", g[\"\x7d\"]);" := by
    decide +kernel
  exact ⟨hcompile, compile_balanced hcompile⟩

end Moonbridge.JavaScript
