import Moonbridge.Proofs.JavaScript.Balance
import Moonbridge.Proofs.Tree.Scopes

/-!
# The scopes of a code

A reader goes through a code from left to right and keeps the names that are declared with `let` in
each scope. A brace outside literals opens a scope, and the one that closes it ends the scope; what
stands outside all braces is the top level. A name is declared by the word `let` in front of it,
with nothing but blanks between the two. Comments, templates and regular expressions, within which
it would be otherwise, do not occur in the code of programs.

In the code of an expression no word stands directly in front of another one, so that it declares
nothing. The code of a block is that of its statements, without braces: what a block declares
belongs to the scope around it. So the scopes of a code are the top level and the bodies of the
program.
-/

namespace Moonbridge.JavaScript

open Lexeme

section Reader

/-- The scopes in which anything is declared. -/
def declaring (scopes : List (List String)) : List (List String) :=
  scopes.filter fun names => !names.isEmpty

/-- The names declared in the scopes of a code, as far as it is read: in the innermost open scope,
in the scopes around it, the nearest first, and in the closed scopes in which anything is declared,
in the order of their ends. -/
structure Scopes where
  names : List String
  outer : List (List String)
  closed : List (List String)

namespace Scopes

/-- Declares a name in the innermost scope. -/
def declare (sc : Scopes) (name : String) : Scopes := { sc with names := sc.names ++ [name] }

/-- Opens a scope. -/
def opened (sc : Scopes) : Scopes := { sc with names := [], outer := sc.names :: sc.outer }

/-- Closes the innermost scope. The top level is not closed. -/
def close (sc : Scopes) : Scopes :=
  match sc.outer with
  | [] => sc
  | names :: outer => ⟨names, outer, sc.closed ++ declaring [sc.names]⟩

/-- All scopes in which anything is declared. -/
def all (sc : Scopes) : List (List String) := sc.closed ++ declaring (sc.names :: sc.outer)

end Scopes

/-- Where a reader stands: outside literals, in one or behind a backslash in one; the word it is
within; whether the word in front of that is `let`; and the scopes so far. -/
structure ScopeReader where
  place : Place
  word : List Char
  declares : Bool
  scopes : Scopes

namespace ScopeReader

/-- What a reader makes of the end of a word. -/
def endWord (s : ScopeReader) : ScopeReader :=
  if s.word = [] then s
  else if s.declares then
    { s with word := [], declares := false, scopes := s.scopes.declare (String.ofList s.word) }
  else { s with word := [], declares := s.word = ['l', 'e', 't'] }

/-- What a reader makes of a character outside words. A blank does not separate `let` from the name
behind it, and any other character does. -/
def sign (s : ScopeReader) (c : Char) : ScopeReader :=
  if isSpace c then s
  else if c = '"' then { s with declares := false, place := .literal }
  else if c = '\x7b' then { s with declares := false, scopes := s.scopes.opened }
  else if c = '\x7d' then { s with declares := false, scopes := s.scopes.close }
  else { s with declares := false }

/-- What a reader makes of a character. -/
def step (s : ScopeReader) (c : Char) : ScopeReader :=
  match s.place with
  | .escape => { s with place := .literal }
  | .literal =>
    if c = '\\' then { s with place := .escape }
    else if c = '"' then { s with place := .code }
    else s
  | .code => if isWordPart c then { s with word := s.word ++ [c] } else s.endWord.sign c

/-- What a reader makes of a text. -/
def read (s : ScopeReader) (text : List Char) : ScopeReader := text.foldl step s

/-- A reader outside literals and words, with no `let` in front of it. -/
def calm (sc : Scopes) : ScopeReader := ⟨.code, [], false, sc⟩

end ScopeReader

/-- The names declared with `let` in each scope of a code in which anything is declared, in the
order of their ends. -/
def scopes (code : String) : List (List String) :=
  ((ScopeReader.calm ⟨[], [], []⟩).read code.toList).endWord.scopes.all

end Reader

namespace Scopes

variable {sc : Scopes} {names names' : List String} {bodies bodies' : List (List String)}

/-- The scopes behind a code that declares `names` in the innermost scope and has closed
`bodies`. -/
def add (sc : Scopes) (names : List String) (bodies : List (List String)) : Scopes where
  names := sc.names ++ names
  outer := sc.outer
  closed := sc.closed ++ declaring bodies

/-- The scopes in which anything is declared are counted one by one. -/
theorem declaring_append (bodies bodies' : List (List String)) :
    declaring (bodies ++ bodies') = declaring bodies ++ declaring bodies' :=
  List.filter_append ..

@[simp] theorem add_nil (sc : Scopes) : sc.add [] [] = sc := by
  simp [add, declaring]

@[simp] theorem add_add : (sc.add names bodies).add names' bodies' =
    sc.add (names ++ names') (bodies ++ bodies') := by
  simp [add, declaring_append]

/-- One name that is added is declared. -/
theorem add_singleton (sc : Scopes) (name : String) : sc.add [name] [] = sc.declare name := by
  simp [add, declare, declaring]

/-- A body that is closed is one more of the closed scopes. -/
theorem close_add_opened : (sc.opened.add names bodies).close = sc.add [] (bodies ++ [names]) := by
  simp [opened, add, close, declaring_append]

/-- A scope in which nothing is declared leaves no trace. -/
theorem close_opened (sc : Scopes) : sc.opened.close = sc := by
  simp [opened, close, declaring]

/-- What is added to the empty scopes is all there is. -/
theorem all_add_top (names : List String) (bodies : List (List String)) :
    ((⟨[], [], []⟩ : Scopes).add names bodies).all = declaring (bodies ++ [names]) := by
  simp [add, all, declaring_append]

end Scopes

namespace ScopeReader

variable {s : ScopeReader} {sc : Scopes} {c : Char} {text text' word : List Char} {declares : Bool}

/-- A text behind another one is read from where the other one has led. -/
theorem read_append : s.read (text ++ text') = (s.read text).read text' := List.foldl_append

theorem read_cons : s.read (c :: text) = (s.step c).read text := rfl

/-- A reader outside literals that declares nothing at the end of the word it is within. -/
def Rests (sc : Scopes) (s : ScopeReader) : Prop :=
  ∃ word declares, s = ⟨.code, word, declares, sc⟩ ∧ (word = [] ∨ declares = false)

private theorem rests_calm (sc : Scopes) : Rests sc (calm sc) := ⟨[], false, rfl, .inl rfl⟩

/-- A reader that rests has no word to end. -/
theorem Rests.endWord (h : Rests sc s) : ∃ declares, s.endWord = ⟨.code, [], declares, sc⟩ := by
  obtain ⟨word, declares, rfl, hquiet⟩ := h
  by_cases hword : word = []
  · exact ⟨declares, by simp [ScopeReader.endWord, hword]⟩
  · obtain rfl := hquiet.resolve_left hword
    exact ⟨word = ['l', 'e', 't'], by simp [ScopeReader.endWord, hword]⟩

/-- Characters of words are collected. -/
theorem read_word (h : ∀ c ∈ text, isWordPart c = true) :
    read ⟨.code, word, declares, sc⟩ text = ⟨.code, word ++ text, declares, sc⟩ := by
  induction text generalizing word with
  | nil => simp [read]
  | cons c text ih =>
    rw [List.forall_mem_cons] at h
    have hstep : step ⟨.code, word, declares, sc⟩ c = ⟨.code, word ++ [c], declares, sc⟩ := by
      simp [step, h.1]
    rw [read_cons, hstep, ih h.2]
    simp

/-- A blank is part of no word. -/
theorem isWordPart_of_isSpace (h : isSpace c = true) : isWordPart c = false := by
  cases hword : isWordPart c with
  | false => rfl
  | true => rw [isSpace_of_isWordPart hword] at h; cases h

/-- Behind a blank the reader is within no word. -/
theorem Rests.blank (h : Rests sc s) (hc : isSpace c = true) :
    ∃ declares, s.step c = ⟨.code, [], declares, sc⟩ := by
  obtain ⟨declares, hend⟩ := h.endWord
  obtain ⟨word, _, rfl, -⟩ := h
  exact ⟨declares, by simp [step, isWordPart_of_isSpace hc, hend, sign, hc]⟩

private theorem isSpace_space : isSpace ' ' = true := by decide

private theorem isSpace_feed : isSpace '\n' = true := by decide

/-- Blanks leave a calm reader as it is. -/
theorem step_calm_blank (hc : isSpace c = true) : (calm sc).step c = calm sc := by
  simp [step, calm, isWordPart_of_isSpace hc, endWord, sign, hc]

/-- The characters that open or close scopes or literals. -/
def borders : List Char := ['"', '\x7b', '\x7d']

/-- Behind any other sign nothing is declared before the next word. -/
theorem Rests.sign (h : Rests sc s) (hword : isWordPart c = false) (hspace : isSpace c = false)
    (hc : c ∉ borders) : s.step c = calm sc := by
  obtain ⟨declares, hend⟩ := h.endWord
  obtain ⟨word, _, rfl, -⟩ := h
  simp only [borders, List.mem_cons, List.not_mem_nil, or_false, not_or] at hc
  simp [step, hword, hend, ScopeReader.sign, hspace, hc, calm]

/-- At an opening brace a scope without names is opened. -/
theorem Rests.open (h : Rests sc s) : s.step '\x7b' = calm sc.opened := by
  obtain ⟨declares, hend⟩ := h.endWord
  obtain ⟨word, _, rfl, -⟩ := h
  have hword : isWordPart '\x7b' = false := by decide
  have hspace : isSpace '\x7b' = false := by decide
  simp [step, hword, hend, ScopeReader.sign, hspace, calm]

/-- At a closing brace the innermost scope is closed. -/
theorem Rests.close (h : Rests sc s) : s.step '\x7d' = calm sc.close := by
  obtain ⟨declares, hend⟩ := h.endWord
  obtain ⟨word, _, rfl, -⟩ := h
  have hword : isWordPart '\x7d' = false := by decide
  have hspace : isSpace '\x7d' = false := by decide
  simp [step, hword, hend, ScopeReader.sign, hspace, calm]

/-- The character behind a name that `let` stands in front of declares the name. -/
theorem step_declared (hword : word ≠ []) (hc : c ∈ [';', ' ']) :
    step ⟨.code, word, true, sc⟩ c = calm (sc.declare (String.ofList word)) := by
  obtain ⟨hpart, hborder⟩ : isWordPart c = false ∧ c ∉ borders := by
    simp only [List.mem_cons, List.not_mem_nil, or_false] at hc
    rcases hc with rfl | rfl <;> decide
  simp only [borders, List.mem_cons, List.not_mem_nil, or_false, not_or] at hborder
  cases hspace : isSpace c <;>
    simp [step, hpart, endWord, hword, ScopeReader.sign, hspace, hborder, calm]

/-- Signs keep a reader that is outside words where it is. -/
theorem read_calm_signs (h : ∀ c ∈ text, isWordPart c = false ∧ c ∉ borders) :
    (calm sc).read text = calm sc := by
  induction text with
  | nil => rfl
  | cons c text ih =>
    rw [List.forall_mem_cons] at h
    have hstep : (calm sc).step c = calm sc := by
      cases hspace : isSpace c with
      | true => exact step_calm_blank hspace
      | false => exact (rests_calm sc).sign h.1.1 hspace h.1.2
    rw [read_cons, hstep, ih h.2]

/-- Signs that are not all blanks part what stands behind them from what stands in front. -/
theorem Rests.read_signs (h : Rests sc s) (hsigns : ∀ c ∈ text, isWordPart c = false ∧ c ∉ borders)
    (hvisible : ∃ c ∈ text, isSpace c = false) : s.read text = calm sc := by
  induction text generalizing s with
  | nil => simp at hvisible
  | cons c text ih =>
    rw [List.forall_mem_cons] at hsigns
    rw [read_cons]
    cases hspace : isSpace c with
    | true =>
      have hvisible' : ∃ c ∈ text, isSpace c = false := by simpa [hspace] using hvisible
      obtain ⟨declares, hstep⟩ := h.blank hspace
      exact ih ⟨[], declares, hstep, .inl rfl⟩ hsigns.2 hvisible'
    | false =>
      rw [h.sign hsigns.1.1 hspace hsigns.1.2]
      exact read_calm_signs hsigns.2

/-- The borders of scopes and literals are delimiters. -/
theorem notMem_borders (h : c ∉ delimiters) : c ∉ borders := by
  simp only [delimiters, List.mem_append, List.mem_cons, not_or] at h
  simp only [borders, List.mem_cons, List.not_mem_nil, or_false, not_or]
  tauto

/-- Signs between two pieces calm the reader. -/
theorem Rests.separates (h : Rests sc s) {between : String} (hbetween : Separates between) :
    s.read between.toList = calm sc :=
  h.read_signs (fun c hc => ⟨hbetween.2.1 c hc, notMem_borders (hbetween.1 c hc)⟩) hbetween.2.2

/-- Within a text without blanks nothing is declared. -/
theorem rests_unbroken (h : ∀ c ∈ text, c ∉ delimiters ∧ isSpace c = false) :
    Rests sc (read ⟨.code, word, false, sc⟩ text) := by
  induction text generalizing word with
  | nil => exact ⟨word, false, rfl, .inr rfl⟩
  | cons c text ih =>
    rw [List.forall_mem_cons] at h
    rw [read_cons]
    cases hword : isWordPart c with
    | true =>
      have hstep : step ⟨.code, word, false, sc⟩ c = ⟨.code, word ++ [c], false, sc⟩ := by
        simp [step, hword]
      rw [hstep]
      exact ih h.2
    | false =>
      have hrests : Rests sc ⟨.code, word, false, sc⟩ := ⟨word, false, rfl, .inr rfl⟩
      rw [hrests.sign hword h.1.2 (notMem_borders h.1.1)]
      exact ih h.2

/-- A character of a text stays within its literal. -/
theorem read_escaped (c : Char) :
    read ⟨.literal, word, declares, sc⟩ (escaped c) = ⟨.literal, word, declares, sc⟩ := by
  obtain ⟨e, he, rfl, hchars⟩ | ⟨hchars, hmarks⟩ := escaped_cases c
  · rw [hchars]
    simp only [escapes, List.mem_cons, List.not_mem_nil, or_false] at he
    rcases he with rfl | rfl | rfl | rfl | rfl | rfl | rfl | rfl | rfl | rfl <;> rfl
  · simp only [literalMarks, List.mem_cons, not_or] at hmarks
    rw [hchars, read_cons]
    simp [step, hmarks, read]

/-- Within a literal escaped characters change nothing. -/
theorem read_literal (text : List Char) :
    read ⟨.literal, word, declares, sc⟩ (text.flatMap escaped) =
      ⟨.literal, word, declares, sc⟩ := by
  induction text with
  | nil => rfl
  | cons c text ih => rw [List.flatMap_cons, read_append, read_escaped, ih]

/-- A literal declares nothing and opens no scope. -/
theorem read_stringLiteral (value : String) :
    (calm sc).read (stringLiteral value).toList = calm sc := by
  have htext : (stringLiteral value).toList =
      '"' :: (value.toList.flatMap escaped ++ ['"']) := by
    simp [stringLiteral, escape, escapeChars_eq_flatMap]
  have hopen : (calm sc).step '"' = ⟨.literal, [], false, sc⟩ := rfl
  rw [htext, read_cons, hopen, read_append, read_literal]
  rfl

/-- Brackets may open and close a scope in which nothing is declared. -/
theorem read_bracketPair {opening closing : String} (h : (opening, closing) ∈ bracketPairs)
    (sc : Scopes) : ∃ inner, (∀ s, Rests sc s → s.read opening.toList = calm inner) ∧
      ∀ s, Rests inner s → s.read closing.toList = calm sc := by
  simp only [bracketPairs, List.mem_cons, Prod.mk.injEq, List.not_mem_nil, or_false] at h
  rcases h with ⟨rfl, rfl⟩ | ⟨rfl, rfl⟩ | ⟨rfl, rfl⟩
  · exact ⟨sc, fun s hs => hs.sign (by decide) (by decide) (by decide),
      fun s hs => hs.sign (by decide) (by decide) (by decide)⟩
  · exact ⟨sc, fun s hs => hs.sign (by decide) (by decide) (by decide),
      fun s hs => hs.sign (by decide) (by decide) (by decide)⟩
  · refine ⟨sc.opened, fun s hs => hs.open, fun s hs => ?_⟩
    rw [← sc.close_opened]
    exact hs.close

/-- A space does not matter where a line starts. -/
theorem step_feed_space (s : ScopeReader) : (s.step '\n').step ' ' = s.step '\n' := by
  have hfeed : isWordPart '\n' = false := isWordPart_of_isSpace isSpace_feed
  have hspace : isWordPart ' ' = false := isWordPart_of_isSpace isSpace_space
  obtain ⟨place, word, declares, scopes⟩ := s
  cases place with
  | literal => rfl
  | escape => rfl
  | code =>
    by_cases hword : word = []
    · simp [step, hfeed, hspace, endWord, hword, sign, isSpace_feed, isSpace_space]
    · cases declares <;>
        simp [step, hfeed, hspace, endWord, hword, sign, isSpace_feed, isSpace_space]

/-- Indenting a text is hidden from the reader. -/
theorem read_indentFrom (fresh : Bool) (hfresh : fresh = true → s.step ' ' = s) :
    s.read (indentFrom fresh text) = s.read text := by
  induction text generalizing s fresh with
  | nil => rfl
  | cons c text ih =>
    have hrest : s.read (c :: indentFrom false text) = s.read (c :: text) := by
      rw [read_cons, read_cons, ih false (by simp)]
    rw [indentFrom]
    split
    · rename_i hfeed
      rw [read_cons, read_cons, hfeed, ih true fun _ => step_feed_space s]
    · split
      · rename_i hstart
        rw [read_cons, hfresh hstart, read_cons, hfresh hstart, hrest]
      · exact hrest

end ScopeReader

section Expressions

open ScopeReader

variable {code : String}

/-- Code in which nothing is declared. -/
def Quiet (code : String) : Prop := ∀ sc, Rests sc ((calm sc).read code.toList)

/-- Declaring nothing passes from pieces of code to what joins them. -/
theorem joinable_quiet : Joinable Quiet where
  unbroken h sc := rests_unbroken h
  joined hbetween hcode hcode' sc := by
    rw [String.toList_append, String.toList_append, read_append, read_append,
      (hcode sc).separates hbetween]
    exact hcode' sc
  enclosed hpair hcode hinner sc := by
    obtain ⟨inner, hopen, hclose⟩ := read_bracketPair hpair sc
    rw [String.toList_append, String.toList_append, String.toList_append, read_append, read_append,
      read_append, hopen _ (hcode sc), hclose _ (hinner inner)]
    exact rests_calm sc
  quoted value sc := by
    rw [read_stringLiteral]
    exact rests_calm sc

/-- A property name declares nothing, with a line break behind it too. -/
theorem quiet_of_isPropertyName (h : isPropertyName code = true) : Quiet code := by
  have hname : ∀ {name : String}, IsName name → Quiet name :=
    fun hname => joinable_quiet.unbroken (unbroken_of_isWord hname.isWord)
  rcases isPropertyName_iff.mp h with hplain | ⟨name, hbroken, rfl⟩
  · exact hname hplain
  · intro sc
    obtain ⟨declares, hstep⟩ := (hname hbroken sc).blank isSpace_feed
    rw [String.toList_append, read_append]
    exact ⟨[], declares, hstep, .inl rfl⟩

end Expressions

section Statements

open ScopeReader

variable {code code' : String} {names names' : List String} {bodies bodies' : List (List String)}

/-- Code that declares `names` in the scope it stands in and holds the scopes `bodies`. -/
def Adds (code : String) (names : List String) (bodies : List (List String)) : Prop :=
  ∀ sc, (calm sc).read code.toList = calm (sc.add names bodies)

/-- What two pieces of code add is added by both of them in order. -/
theorem Adds.append (h : Adds code names bodies) (h' : Adds code' names' bodies') :
    Adds (code ++ code') (names ++ names') (bodies ++ bodies') := by
  intro sc
  rw [String.toList_append, read_append, h, h', Scopes.add_add]

/-- What adds nothing may stand in front of other code. -/
theorem Adds.behind (h : Adds code [] []) (h' : Adds code' names bodies) :
    Adds (code ++ code') names bodies := h.append h'

/-- Code that leaves every calm reader as it is adds nothing. -/
theorem adds_of_read (h : ∀ sc, (calm sc).read code.toList = calm sc) : Adds code [] [] := by
  intro sc
  rw [h, Scopes.add_nil]

private theorem adds_feed : Adds "\n" [] [] := adds_of_read fun _ => rfl

/-- Code that declares nothing, with signs behind it. -/
theorem Quiet.adds (h : Quiet code) {between : String} (hbetween : Separates between) :
    Adds (code ++ between) [] [] :=
  adds_of_read fun sc => by
    rw [String.toList_append, read_append, (h sc).separates hbetween]

/-- A code in parentheses, behind another one and in front of a space. -/
theorem Quiet.adds_inParens (h : Quiet code) (h' : Quiet code') :
    Adds (code ++ "(" ++ code' ++ ") ") [] [] := by
  refine adds_of_read fun sc => ?_
  obtain ⟨inner, hopen, hclose⟩ :=
    read_bracketPair (show ("(", ")") ∈ bracketPairs by decide) sc
  have htext : (code ++ "(" ++ code' ++ ") ").toList =
      code.toList ++ ("(".toList ++ (code'.toList ++ (")".toList ++ [' ']))) := by
    simp
  rw [htext, read_append, read_append, read_append, read_append, hopen _ (h sc),
    hclose _ (h' inner)]
  exact step_calm_blank isSpace_space

/-- A text in braces behind a line break is a scope of its own. -/
theorem read_inBraces {sc : Scopes} {text : List Char}
    (h : (calm sc.opened).read text = calm (sc.opened.add names bodies)) :
    (calm sc).read ('\x7b' :: '\n' :: (text ++ ['\x7d'])) =
      calm (sc.add [] (bodies ++ [names])) := by
  have hfeed : (calm sc.opened).step '\n' = calm sc.opened := step_calm_blank isSpace_feed
  rw [read_cons, (rests_calm sc).open, read_cons, hfeed, read_append, h,
    ← Scopes.close_add_opened]
  exact (rests_calm _).close

/-- What a body declares belongs to a scope of its own. -/
theorem Adds.braced (h : Adds code names bodies) :
    Adds (braced code) [] (bodies ++ [names]) := by
  intro sc
  unfold JavaScript.braced
  split
  · rename_i hempty
    have hnone : (calm sc.opened).read [] = calm (sc.opened.add names bodies) := by
      simpa [hempty] using h sc.opened
    exact read_inBraces hnone
  · have htext : ("\x7b\n" ++ indent code ++ "\n\x7d").toList =
        '\x7b' :: '\n' :: (indentFrom true code.toList ++ ['\n'] ++ ['\x7d']) := by
      simp [indent]
    rw [htext]
    apply read_inBraces
    rw [read_append, read_indentFrom true fun _ => step_calm_blank isSpace_space, h]
    exact step_calm_blank isSpace_feed

/-- The code of a list of statements adds what they add. -/
theorem adds_lines {ss : List Stmt}
    (h : ∀ s ∈ ss, Adds (statement s) s.locals s.bodyScopes) :
    Adds (lines (ss.map statement)) (Stmt.localsOfAll ss) (Stmt.bodyScopesOfAll ss) := by
  induction ss with
  | nil => exact adds_of_read fun _ => rfl
  | cons s ss ih =>
    rw [List.forall_mem_cons] at h
    cases ss with
    | nil => simpa [lines, Stmt.localsOfAll, Stmt.bodyScopesOfAll] using h.1
    | cons t ss =>
      have hrest := (h.1.append adds_feed).append (ih h.2)
      rw [List.append_nil, List.append_nil] at hrest
      rw [List.map_cons, List.map_cons, lines, String.intercalate_cons_cons, ← List.map_cons]
      exact hrest

/-- The head of a function adds nothing. -/
theorem adds_functionHead {name : Token} {params : List Token}
    (hname : Lexer.IsWord name.lexeme.toList)
    (hparams : ∀ t ∈ params, Lexer.IsWord t.lexeme.toList) :
    Adds (functionHead name params) [] [] := by
  have hlist : Quiet (", ".intercalate (params.map (·.lexeme))) :=
    joinable_quiet.listed (List.forall_mem_map.mpr fun t ht => joinable_quiet.word (hparams t ht))
  have hkeyword : Adds "function " [] [] := adds_of_read fun _ => rfl
  have hrest := hkeyword.behind ((joinable_quiet.word hname).adds_inParens hlist)
  simpa only [functionHead, String.append_assoc] using hrest

/-- The head of a conditional or a loop adds nothing. -/
theorem adds_conditionHead {keyword : String} (hkeyword : Adds (keyword ++ " ") [] [])
    {cond : Expr} (hcond : cond.Writes Quiet) : Adds (conditionHead keyword cond) [] [] := by
  have hempty : Quiet "" := joinable_quiet.unbroken (by decide)
  have hrest := hkeyword.behind (hempty.adds_inParens (joinable_quiet.expression cond hcond))
  have htext : conditionHead keyword cond =
      keyword ++ " " ++ ("" ++ "(" ++ expression cond ++ ") ") := by
    simp only [conditionHead, String.append_assoc, String.empty_append]
    rfl
  rw [htext]
  exact hrest

/-- A name behind `let` is declared by the character behind it. -/
theorem adds_declared {name ending : String} (hname : IsWord name.toList)
    (hending : ∃ c ∈ [';', ' '], ending.toList = [c]) :
    Adds ("let " ++ name ++ ending) [name] [] := by
  intro sc
  obtain ⟨c, hc, htext⟩ := hending
  have hlet : (calm sc).read "let ".toList = ⟨.code, [], true, sc⟩ := rfl
  have hne : name.toList ≠ [] := by
    obtain ⟨d, hd, -⟩ := hname.start
    exact List.ne_nil_of_mem (List.mem_of_mem_head? hd)
  have hstep : (⟨.code, name.toList, true, sc⟩ : ScopeReader).step c = calm (sc.declare name) := by
    rw [step_declared hne hc, String.ofList_toList]
  rw [String.toList_append, String.toList_append, htext, read_append, read_append, hlet,
    read_word hname.parts, Scopes.add_singleton]
  exact hstep

/-- A statement without a body adds the name it declares. -/
theorem adds_simple : ∀ {s : Stmt}, s.isSimple = true → s.Writes Quiet →
    Adds (statement s) s.locals s.bodyScopes
  | .expression expr, _, hs => by
    have hquiet := joinable_quiet.expression expr (Stmt.writes_expression.mp hs)
    rw [statement, Stmt.locals, Stmt.bodyScopes]
    exact hquiet.adds (by decide)
  | .returned _ none, _, _ => by
    rw [statement, Stmt.locals, Stmt.bodyScopes]
    exact adds_of_read fun _ => rfl
  | .returned _ (some value), _, hs => by
    have hvalue := joinable_quiet.expression value (Stmt.writes_returned.mp hs value rfl)
    have hkeyword : Adds "return " [] [] := adds_of_read fun _ => rfl
    rw [statement, Stmt.locals, Stmt.bodyScopes, String.append_assoc]
    exact hkeyword.behind (hvalue.adds (by decide))
  | .declared name none, _, hs => by
    rw [statement, Stmt.locals, Stmt.bodyScopes]
    exact adds_declared (isWord_of_lexer (Stmt.writes_declared.mp hs).1) ⟨';', by decide, by decide⟩
  | .declared name (some initial), _, hs => by
    obtain ⟨hword, hinitial⟩ := Stmt.writes_declared.mp hs
    have hvalue := joinable_quiet.expression initial (hinitial initial rfl)
    have hname : Adds ("let " ++ name.lexeme ++ " ") [name.lexeme] [] :=
      adds_declared (isWord_of_lexer hword) ⟨' ', by decide, by decide⟩
    have hequals : Adds "= " [] [] := adds_of_read fun _ => rfl
    have htext : statement (.declared name (some initial)) =
        "let " ++ name.lexeme ++ " " ++ ("= " ++ (expression initial ++ ";")) := by
      apply String.toList_injective
      simp [statement]
    rw [htext, Stmt.locals, Stmt.bodyScopes]
    exact hname.append (hequals.behind (hvalue.adds (by decide)))

mutual

/-- The code of a statement declares the local variables that the statement adds to the scope it
stands in, and holds the scopes of its bodies. -/
theorem adds_statement : ∀ s : Stmt, s.Writes Quiet → Adds (statement s) s.locals s.bodyScopes
  | .expression _, h | .returned _ _, h | .declared _ _, h => adds_simple rfl h
  | .function name params body, h => by
    obtain ⟨hname, hparams, hbody⟩ := Stmt.writes_function.mp h
    have hlines := adds_lines (adds_statements body hbody)
    rw [← statements_eq_map] at hlines
    rw [statement_function]
    exact (adds_functionHead hname hparams).behind hlines.braced
  | .conditional cond thenBranch none, h => by
    obtain ⟨hcond, hthen⟩ := Stmt.writes_conditional.mp h
    rw [statement_conditional]
    exact (adds_conditionHead (adds_of_read fun _ => rfl) hcond).behind
      (adds_statement thenBranch hthen).braced
  | .conditional cond thenBranch (some elseBranch), h => by
    obtain ⟨hcond, hthen, helse⟩ := Stmt.writes_conditional_else.mp h
    have hhead : Adds (conditionHead "if" cond) [] [] :=
      adds_conditionHead (adds_of_read fun _ => rfl) hcond
    have hword : Adds " else " [] [] := adds_of_read fun _ => rfl
    have hfirst := hhead.behind (adds_statement thenBranch hthen).braced
    have hsecond := hword.behind (adds_statement elseBranch helse).braced
    have hboth := hfirst.append hsecond
    rw [← String.append_assoc] at hboth
    rw [statement_conditional_else]
    exact hboth
  | .loop cond body, h => by
    obtain ⟨hcond, hbody⟩ := Stmt.writes_loop.mp h
    rw [statement_loop]
    exact (adds_conditionHead (adds_of_read fun _ => rfl) hcond).behind
      (adds_statement body hbody).braced
  | .block body, h => by
    rw [statement, statements_eq_map]
    exact adds_lines (adds_statements body (Stmt.writes_block.mp h))

/-- The code of each of several statements adds its names and the scopes of its bodies. -/
theorem adds_statements : ∀ ss : List Stmt, (∀ s ∈ ss, s.Writes Quiet) →
    ∀ s ∈ ss, Adds (statement s) s.locals s.bodyScopes
  | [], _ => by simp
  | s :: ss, h => by
    rw [List.forall_mem_cons] at h
    exact List.forall_mem_cons.mpr ⟨adds_statement s h.1, adds_statements ss h.2⟩

end

end Statements

/-- The scopes of the code of a source are the top level and the bodies of its program. -/
theorem scopes_compile {source code : String} {program : Program}
    (hprogram : programOf source = .ok program) (hcode : compile source = .ok code) :
    scopes code = declaring program.bodyScopes := by
  rw [compile_eq_map, hprogram] at hcode
  obtain rfl := Except.ok.inj hcode
  have hwrites := writes_of_programOf hprogram (P := Quiet)
    fun table name _ hname => quiet_of_isPropertyName hname
  have hadds := adds_lines (adds_statements program hwrites) ⟨[], [], []⟩
  have hcalm : ∀ sc, (ScopeReader.calm sc).endWord.scopes = sc := fun _ => rfl
  rw [scopes, JavaScript.program, hadds, hcalm, Scopes.all_add_top]
  rfl

/-- If no scope of an accepted source declares a local variable twice, then no scope of its code
declares a name twice with `let`. A block that stands among statements belongs to the scope around
it; the scopes are the top level and the bodies of functions, conditionals and loops. -/
theorem scopes_apart {source code : String} {program : Program}
    (hprogram : programOf source = .ok program) (hcode : compile source = .ok code)
    (hapart : ∀ names ∈ program.bodyScopes, names.Nodup) : ∀ names ∈ scopes code, names.Nodup := by
  rw [scopes_compile hprogram hcode]
  exact fun names hnames => hapart names (List.mem_of_mem_filter hnames)

/-- What can be told of the program of a source is told of a program. -/
theorem exists_program {α : Type} {source : String} {f : Program → α} {a : α}
    (h : (programOf source).map f = .ok a) : ∃ program, programOf source = .ok program ∧
      f program = a := by
  cases hprogram : programOf source with
  | error e =>
    rw [hprogram] at h
    cases h
  | ok program =>
    rw [hprogram] at h
    exact ⟨program, rfl, Except.ok.inj h⟩

/-- A branch may declare what the top level declares, also in front of a block. -/
theorem scopes_apart_branch :
    ∃ program, programOf "local a; if a then \x7b local a; \x7b local b; \x7d \x7d end" =
        .ok program ∧
      compile "local a; if a then \x7b local a; \x7b local b; \x7d \x7d end" =
        .ok "let a;\nif (a) \x7b\n  let a;\n  let b;\n\x7d" ∧
      (∀ names ∈ program.bodyScopes, names.Nodup) ∧
      ∀ names ∈ scopes "let a;\nif (a) \x7b\n  let a;\n  let b;\n\x7d", names.Nodup := by
  have hbodies : (programOf "local a; if a then \x7b local a; \x7b local b; \x7d \x7d end").map
      Program.bodyScopes = .ok [["a", "b"], ["a"]] := by decide +kernel
  have hcode : compile "local a; if a then \x7b local a; \x7b local b; \x7d \x7d end" =
      .ok "let a;\nif (a) \x7b\n  let a;\n  let b;\n\x7d" := by decide +kernel
  obtain ⟨program, hprogram, hscopes⟩ := exists_program hbodies
  have hapart : ∀ names ∈ program.bodyScopes, names.Nodup := by
    rw [hscopes]
    decide
  exact ⟨program, hprogram, hcode, hapart, scopes_apart hprogram hcode hapart⟩

/-- If each block counts on its own, no scope of this source declares a name twice, but the top
level of its code does. -/
theorem blocks_not_apart :
    ∃ program, programOf "local a; \x7b local a; \x7d" = .ok program ∧
      compile "local a; \x7b local a; \x7d" = .ok "let a;\nlet a;" ∧
      (∀ names ∈ program.blockScopes, names.Nodup) ∧
      ¬ ∀ names ∈ scopes "let a;\nlet a;", names.Nodup := by
  have hblocks : (programOf "local a; \x7b local a; \x7d").map Program.blockScopes =
      .ok [["a"], ["a"]] := by decide +kernel
  have hcode : compile "local a; \x7b local a; \x7d" = .ok "let a;\nlet a;" := by decide +kernel
  have htwice : scopes "let a;\nlet a;" = [["a", "a"]] := by decide +kernel
  obtain ⟨program, hprogram, hscopes⟩ := exists_program hblocks
  refine ⟨program, hprogram, hcode, ?_, ?_⟩
  · rw [hscopes]
    decide
  · rw [htwice]
    decide

end Moonbridge.JavaScript
