import Mathlib.Logic.Function.Iterate
import Moonbridge.Proofs.JavaScript.Composed
import Moonbridge.Proofs.JavaScript.Meaning

/-!
# Indentation

A printer that knows the level of each line: it writes the line once, behind a margin of two spaces
for each body around it. The code of a program is instead indented body by body, as a text, with all
that has been indented before. Both give the same lines, since no line ends within an expression, a
literal or a name, so that what is indented again is always a whole line.
-/

namespace Moonbridge.JavaScript

open StringLiteral (lineTerminators)

/-- A text in which no line ends. -/
def OneLine (code : String) : Prop := ∀ c ∈ code.toList, c ∉ lineTerminators

/-- Whether a text is on one line is decided on its characters. -/
instance (code : String) : Decidable (OneLine code) :=
  List.decidableBAll (· ∉ lineTerminators) code.toList

section Printer

/-- A line of code: an empty one, or a text at a level. -/
inductive Line
  | empty
  | text (level : Nat) (content : String)
  deriving DecidableEq, Repr

/-- The spaces in front of a line. -/
def margin (level : Nat) : String := String.ofList (List.replicate (2 * level) ' ')

/-- A line as it is written. -/
def Line.render : Line → String
  | .empty => ""
  | .text level content => margin level ++ content

/-- Lines as they are written one below the other. -/
def joined (ls : List Line) : String := lines (ls.map Line.render)

/-- The lines of a body. There are none if nothing would be written. -/
def bodyLines (ls : List Line) : List Line := if joined ls = "" then [] else ls

mutual

/-- The lines of a statement at a level. The bodies of functions, conditionals and loops stand one
level deeper, the statements of a block do not. A block without statements is an empty line. -/
def printed (level : Nat) : Stmt → List Line
  | .expression expr => [.text level (expression expr ++ ";")]
  | .function name params body =>
    .text level (functionHead name params ++ "\x7b") ::
      (bodyLines (printedAll (level + 1) body) ++ [.text level "\x7d"])
  | .conditional cond thenBranch none =>
    .text level (conditionHead "if" cond ++ "\x7b") ::
      (bodyLines (printed (level + 1) thenBranch) ++ [.text level "\x7d"])
  | .conditional cond thenBranch (some elseBranch) =>
    .text level (conditionHead "if" cond ++ "\x7b") ::
      (bodyLines (printed (level + 1) thenBranch) ++ .text level "\x7d else \x7b" ::
        (bodyLines (printed (level + 1) elseBranch) ++ [.text level "\x7d"]))
  | .returned _ none => [.text level "return;"]
  | .returned _ (some value) => [.text level ("return " ++ expression value ++ ";")]
  | .declared name none => [.text level ("let " ++ name.lexeme ++ ";")]
  | .declared name (some initial) =>
    [.text level ("let " ++ name.lexeme ++ " = " ++ expression initial ++ ";")]
  | .loop cond body =>
    .text level (conditionHead "while" cond ++ "\x7b") ::
      (bodyLines (printed (level + 1) body) ++ [.text level "\x7d"])
  | .block body => if body.isEmpty then [.empty] else printedAll level body

/-- The lines of statements one after the other. -/
def printedAll (level : Nat) : List Stmt → List Line
  | [] => []
  | s :: ss => printed level s ++ printedAll level ss

end

end Printer

section Indent

variable {code code' : String}

/-- A line break ends a line, whatever stands in front of it. -/
theorem indentFrom_feed (fresh : Bool) (text text' : List Char) :
    indentFrom fresh (text ++ '\n' :: text') =
      indentFrom fresh text ++ '\n' :: indentFrom true text' := by
  induction text generalizing fresh with
  | nil => simp [indentFrom]
  | cons c text ih =>
    simp only [List.cons_append, indentFrom, ih]
    split
    · rfl
    · split <;> rfl

/-- The lines around a line break are indented separately. -/
theorem indent_feed (code code' : String) :
    indent (code ++ "\n" ++ code') = indent code ++ "\n" ++ indent code' := by
  apply String.toList_injective
  simp [indent, indentFrom_feed]

/-- Behind the start of its line a text is left as it is. -/
theorem indentFrom_false {text : List Char} (h : '\n' ∉ text) : indentFrom false text = text := by
  induction text with
  | nil => rfl
  | cons c text ih =>
    simp only [List.mem_cons, not_or] at h
    simp [indentFrom, Ne.symm h.1, ih h.2]

/-- A line that is not empty is indented by two spaces. -/
theorem indent_line (h : '\n' ∉ code.toList) (hne : code ≠ "") : indent code = "  " ++ code := by
  apply String.toList_injective
  obtain ⟨c, text, htext⟩ := List.exists_cons_of_ne_nil (mt String.toList_eq_nil_iff.mp hne)
  rw [htext, List.mem_cons, not_or] at h
  simp [indent, htext, indentFrom, Ne.symm h.1, indentFrom_false h.2]

@[simp] theorem indent_eq_empty_iff : indent code = "" ↔ code = "" := by
  rw [indent, ← String.toList_eq_nil_iff, ← String.toList_eq_nil_iff, String.toList_ofList]
  cases code.toList with
  | nil => simp [indentFrom]
  | cons c text =>
    simp only [indentFrom]
    split
    · simp
    · simp

variable {level : Nat}

/-- However often the lines around a break are indented, they are indented separately. -/
theorem iterate_indent_feed (level : Nat) (code code' : String) :
    indent^[level] (code ++ "\n" ++ code') =
      indent^[level] code ++ "\n" ++ indent^[level] code' := by
  induction level generalizing code code' with
  | zero => rfl
  | succ level ih => simp only [Function.iterate_succ_apply, indent_feed, ih]

@[simp] theorem iterate_indent_eq_empty_iff : indent^[level] code = "" ↔ code = "" := by
  induction level with
  | zero => rfl
  | succ level ih => rw [Function.iterate_succ_apply', indent_eq_empty_iff, ih]

/-- A line that is indented again and again gets its margin. -/
theorem iterate_indent_line (h : '\n' ∉ code.toList) (hne : code ≠ "") (level : Nat) :
    indent^[level] code = margin level ++ code := by
  induction level with
  | zero => simp [margin]
  | succ level ih =>
    have hspaces : "  " ++ margin level = margin (level + 1) := by
      apply String.toList_injective
      simp [margin, Nat.mul_succ, List.replicate_succ]
    have hline : '\n' ∉ (margin level ++ code).toList := by
      simp [margin, List.mem_replicate, h]
    rw [Function.iterate_succ_apply', ih, indent_line hline (by simp [hne]), ← String.append_assoc,
      hspaces]

end Indent

section Lines

variable {ls ls' before after : List Line} {level : Nat} {content start code finish : String}

/-- A line that is the empty one, or has a content within which no line ends. -/
def Line.Solid : Line → Prop
  | .empty => True
  | .text _ content => content ≠ "" ∧ OneLine content

/-- In particular no line feed occurs in a single line. -/
theorem OneLine.feed_notMem (h : OneLine code) : '\n' ∉ code.toList :=
  fun hmem => h _ hmem (by decide)

/-- A solid line is written on one line. -/
theorem Line.Solid.oneLine {line : Line} (h : line.Solid) : OneLine line.render := by
  cases line with
  | empty => simp [OneLine, Line.render]
  | text level content =>
    intro c hc
    rw [Line.render, String.toList_append, List.mem_append] at hc
    rcases hc with hc | hc
    · rw [margin, String.toList_ofList] at hc
      rw [List.eq_of_mem_replicate hc]
      decide
    · exact h.2 c hc

/-- A line at a level is its content, indented once for each level. -/
theorem joined_text (h : (Line.text level content).Solid) :
    joined [.text level content] = indent^[level] content := by
  rw [iterate_indent_line h.2.feed_notMem h.1]
  simp [joined, lines, Line.render]

/-- Lines below other lines are set off by a line break. -/
theorem joined_append (hls : ls ≠ []) (hls' : ls' ≠ []) :
    joined (ls ++ ls') = joined ls ++ "\n" ++ joined ls' := by
  rw [joined, lines, List.map_append,
    String.intercalate_append_of_ne_nil (by simpa using hls) (by simpa using hls')]
  rfl

/-- A body on lines of its own between what stands in front of it and behind it. An empty body
takes no line. -/
def between (start code finish : String) : String :=
  if code = "" then start ++ "\n" ++ finish
  else start ++ "\n" ++ indent code ++ "\n" ++ finish

/-- Code in braces stands between what opens it and what closes it. -/
theorem append_braced (head code tail : String) :
    head ++ braced code ++ tail = between (head ++ "\x7b") code ("\x7d" ++ tail) := by
  apply String.toList_injective
  unfold braced between
  split
  · simp
  · simp

/-- The lines of a body between other lines. -/
theorem joined_between (hbefore : before ≠ []) (hafter : after ≠ [])
    (hstart : joined before = indent^[level] start)
    (hcode : joined ls = indent^[level + 1] code)
    (hfinish : joined after = indent^[level] finish) :
    joined (before ++ (bodyLines ls ++ after)) = indent^[level] (between start code finish) := by
  unfold bodyLines between
  -- Both sides leave a body out by the same test, because indenting adds nothing to an empty text.
  by_cases hempty : code = ""
  · have hnone : joined ls = "" := by rw [hcode, hempty, iterate_indent_eq_empty_iff]
    rw [if_pos hnone, if_pos hempty, List.nil_append, joined_append hbefore hafter, hstart,
      hfinish, iterate_indent_feed]
  · have hsome : joined ls ≠ "" := by rwa [hcode, Ne, iterate_indent_eq_empty_iff]
    have hls : ls ≠ [] := by
      rintro rfl
      exact hsome rfl
    rw [if_neg hsome, if_neg hempty, joined_append hbefore (by simp [hls]),
      joined_append hls hafter, hstart, hcode, hfinish, iterate_indent_feed, iterate_indent_feed,
      Function.iterate_succ_apply]
    simp only [String.append_assoc]

end Lines

section Statements

/-- Two pieces of a line make up a line. -/
theorem OneLine.append {code code' : String} (h : OneLine code) (h' : OneLine code') :
    OneLine (code ++ code') := by
  rw [OneLine, String.toList_append, List.forall_mem_append]
  exact ⟨h, h'⟩

/-- Standing on one line passes from pieces of code to what is composed of them. -/
theorem composable_oneLine : Composable OneLine where
  plain h c hc hend := h c hc (List.mem_append_right _ hend)
  append := .append
  enclosed hpair hcode := by
    have hbrackets : ∀ pair ∈ bracketPairs, OneLine pair.1 ∧ OneLine pair.2 := by decide
    obtain ⟨hopening, hclosing⟩ := hbrackets _ hpair
    exact (hopening.append hcode).append hclosing
  quoted value := by
    have hquote : OneLine "\"" := by decide
    have hvalue : OneLine (escape value) := fun c => oneLine_escaped value
    exact (hquote.append hvalue).append hquote

variable {level : Nat} {ls after : List Line} {head code tail : String}

/-- A piece with something behind it makes up a solid line. -/
theorem solid_append (hcode : OneLine code) (htail : OneLine tail) (hne : tail ≠ "") :
    (Line.text level (code ++ tail)).Solid :=
  ⟨by simp [hne], hcode.append htail⟩

private theorem solid_brace : ∀ line ∈ [Line.text level "\x7d"], line.Solid := by
  have hbrace : (Line.text level "\x7d").Solid := ⟨by decide, by decide⟩
  simpa using hbrace

/-- The lines of code in braces are solid if those of its body and those behind it are. -/
theorem solid_braced (hhead : OneLine head) (hls : ∀ line ∈ ls, line.Solid)
    (hafter : ∀ line ∈ after, line.Solid) :
    ∀ line ∈ .text level (head ++ "\x7b") :: (bodyLines ls ++ after), line.Solid := by
  have hbody : ∀ line ∈ bodyLines ls, line.Solid := by
    unfold bodyLines
    split
    · simp
    · exact hls
  rw [List.forall_mem_cons, List.forall_mem_append]
  exact ⟨solid_append hhead (by decide) (by decide), hbody, hafter⟩

/-- A statement without a body is one line. -/
theorem printed_simple (level : Nat) : ∀ {s : Stmt}, s.isSimple = true →
    printed level s = [.text level (statement s)]
  | .expression _, _ | .returned _ none, _ | .returned _ (some _), _ | .declared _ none, _
  | .declared _ (some _), _ => by rw [printed, statement]

/-- A statement without a body is written on one solid line. -/
theorem solid_simple : ∀ {s : Stmt}, s.isSimple = true → s.Writes OneLine →
    (Line.text level (statement s)).Solid
  | .expression _, hs, h | .returned _ none, hs, h | .returned _ (some _), hs, h
  | .declared _ none, hs, h | .declared _ (some _), hs, h =>
    ⟨by simp [statement], composable_oneLine.simple hs h⟩

mutual

/-- No line of a statement ends within it. -/
theorem solid_printed : ∀ (level : Nat) (s : Stmt), s.Writes OneLine →
    ∀ line ∈ printed level s, line.Solid
  | level, .expression _, h | level, .returned _ _, h | level, .declared _ _, h => by
    rw [printed_simple level rfl, List.forall_mem_singleton]
    exact solid_simple rfl h
  | level, .function name params body, h => by
    obtain ⟨hname, hparams, hbody⟩ := Stmt.writes_function.mp h
    rw [printed]
    exact solid_braced (composable_oneLine.functionHead hname hparams)
      (solid_printedAll (level + 1) body hbody) solid_brace
  | level, .conditional cond thenBranch none, h => by
    obtain ⟨hcond, hthen⟩ := Stmt.writes_conditional.mp h
    rw [printed]
    exact solid_braced (composable_oneLine.conditionHead (by decide) hcond)
      (solid_printed (level + 1) thenBranch hthen) solid_brace
  | level, .conditional cond thenBranch (some elseBranch), h => by
    obtain ⟨hcond, hthen, helse⟩ := Stmt.writes_conditional_else.mp h
    have hword : OneLine "\x7d else " := by decide
    rw [printed]
    refine solid_braced (composable_oneLine.conditionHead (by decide) hcond)
      (solid_printed (level + 1) thenBranch hthen) ?_
    exact solid_braced hword (solid_printed (level + 1) elseBranch helse) solid_brace
  | level, .loop cond body, h => by
    obtain ⟨hcond, hbody⟩ := Stmt.writes_loop.mp h
    rw [printed]
    exact solid_braced (composable_oneLine.conditionHead (by decide) hcond)
      (solid_printed (level + 1) body hbody) solid_brace
  | level, .block body, h => by
    rw [printed]
    split
    · simp [Line.Solid]
    · exact solid_printedAll level body (Stmt.writes_block.mp h)

/-- All lines of statements are solid. -/
theorem solid_printedAll : ∀ (level : Nat) (ss : List Stmt), (∀ s ∈ ss, s.Writes OneLine) →
    ∀ line ∈ printedAll level ss, line.Solid
  | level, [], h => by simp [printedAll]
  | level, s :: ss, h => by
    rw [List.forall_mem_cons] at h
    rw [printedAll, List.forall_mem_append]
    exact ⟨solid_printed level s h.1, solid_printedAll level ss h.2⟩

end

/-- Every statement has a line. -/
theorem printed_ne_nil (level : Nat) : ∀ s : Stmt, printed level s ≠ []
  | .expression _ | .function _ _ _ | .conditional _ _ none | .conditional _ _ (some _)
  | .returned _ none | .returned _ (some _) | .declared _ none | .declared _ (some _)
  | .loop _ _ | .block [] => by simp [printed]
  | .block (s :: ss) => by simp [printed, printedAll, printed_ne_nil level s]

/-- The lines of a head, a body in braces and what follows. -/
theorem joined_braced (hhead : OneLine head) (hls : joined ls = indent^[level + 1] code)
    (hne : after ≠ []) (hafter : joined after = indent^[level] ("\x7d" ++ tail)) :
    joined (.text level (head ++ "\x7b") :: (bodyLines ls ++ after)) =
      indent^[level] (head ++ braced code ++ tail) := by
  have hfirst : (Line.text level (head ++ "\x7b")).Solid :=
    solid_append hhead (by decide) (by decide)
  rw [append_braced, ← List.singleton_append]
  exact joined_between (List.cons_ne_nil _ _) hne (joined_text hfirst) hls hafter

/-- The lines of a head and a body in braces. -/
theorem joined_braced_last (hhead : OneLine head) (hls : joined ls = indent^[level + 1] code) :
    joined (.text level (head ++ "\x7b") :: (bodyLines ls ++ [.text level "\x7d"])) =
      indent^[level] (head ++ braced code) := by
  have hlast : joined [.text level "\x7d"] = indent^[level] ("\x7d" ++ "") := by
    rw [String.append_empty, joined_text (solid_brace _ List.mem_cons_self)]
  have hall := joined_braced hhead hls (List.cons_ne_nil _ _) hlast
  rwa [String.append_empty] at hall

mutual

/-- The lines of a statement at a level are its code, indented once for each level. The induction
leaves the level free: a body is written one level deeper, and indented once more. -/
theorem joined_printed : ∀ (level : Nat) (s : Stmt), s.Writes OneLine →
    joined (printed level s) = indent^[level] (statement s)
  | level, .expression _, h | level, .returned _ _, h | level, .declared _ _, h => by
    rw [printed_simple level rfl]
    exact joined_text (solid_simple rfl h)
  | level, .function name params body, h => by
    obtain ⟨hname, hparams, hbody⟩ := Stmt.writes_function.mp h
    rw [printed, statement_function]
    exact joined_braced_last (composable_oneLine.functionHead hname hparams)
      (joined_printedAll (level + 1) body hbody)
  | level, .conditional cond thenBranch none, h => by
    obtain ⟨hcond, hthen⟩ := Stmt.writes_conditional.mp h
    rw [printed, statement_conditional]
    exact joined_braced_last (composable_oneLine.conditionHead (by decide) hcond)
      (joined_printed (level + 1) thenBranch hthen)
  | level, .conditional cond thenBranch (some elseBranch), h => by
    obtain ⟨hcond, hthen, helse⟩ := Stmt.writes_conditional_else.mp h
    have hword : OneLine "\x7d else " := by decide
    have hafter := joined_braced_last hword (joined_printed (level + 1) elseBranch helse)
    have htext : "\x7d else " ++ braced (statement elseBranch) =
        "\x7d" ++ (" else " ++ braced (statement elseBranch)) := by
      rw [← String.append_assoc]
      rfl
    rw [printed, statement_conditional_else, String.append_assoc]
    rw [htext] at hafter
    exact joined_braced (composable_oneLine.conditionHead (by decide) hcond)
      (joined_printed (level + 1) thenBranch hthen) (List.cons_ne_nil _ _) hafter
  | level, .loop cond body, h => by
    obtain ⟨hcond, hbody⟩ := Stmt.writes_loop.mp h
    rw [printed, statement_loop]
    exact joined_braced_last (composable_oneLine.conditionHead (by decide) hcond)
      (joined_printed (level + 1) body hbody)
  | level, .block [], h => by
    rw [printed, statement, List.isEmpty_nil, if_pos rfl]
    exact (iterate_indent_eq_empty_iff.mpr rfl).symm
  | level, .block (s :: ss), h => by
    rw [printed, statement, if_neg (by simp)]
    exact joined_printedAll level (s :: ss) (Stmt.writes_block.mp h)

/-- Joined, the lines of statements at a level are their code, indented that often. -/
theorem joined_printedAll : ∀ (level : Nat) (ss : List Stmt), (∀ s ∈ ss, s.Writes OneLine) →
    joined (printedAll level ss) = indent^[level] (lines (statements ss))
  | level, [], h => (iterate_indent_eq_empty_iff.mpr rfl).symm
  | level, [s], h => by
    have hs := joined_printed level s (h s (by simp))
    simpa [printedAll, statements, lines] using hs
  | level, s :: s' :: ss, h => by
    rw [List.forall_mem_cons] at h
    have hs := joined_printed level s h.1
    have hothers := joined_printedAll level (s' :: ss) h.2
    have hne : printedAll level (s' :: ss) ≠ [] := by
      simp [printedAll, printed_ne_nil level s']
    have htext : lines (statements (s :: s' :: ss)) =
        statement s ++ "\n" ++ lines (statements (s' :: ss)) := by
      simp only [lines, statements, String.intercalate_cons_cons]
    rw [printedAll, joined_append (printed_ne_nil level s) hne, hs, hothers, htext,
      iterate_indent_feed]

end

end Statements

/-- Cutting a text at its line breaks gives the lines that it was joined from. -/
theorem splitOn_joined {ls : List Line} (hls : ls ≠ []) (h : ∀ line ∈ ls, line.Solid) :
    (joined ls).toList.splitOn '\n' = ls.map (·.render.toList) := by
  have htext : (joined ls).toList = ['\n'].intercalate (ls.map (·.render.toList)) := by
    simp [joined, lines, String.toList_intercalate, Function.comp_def]
  rw [htext, List.splitOn_intercalate]
  · rw [List.forall_mem_map]
    exact fun line hline => (h line hline).oneLine.feed_notMem
  · simpa using hls

section Sample

open Grammar

/-- A token of the sample on a given line. -/
def sampleOf (kind : Kind) (lexeme : String) (line : Int) : Of kind :=
  ⟨⟨kind, lexeme, .nil, line⟩, rfl⟩

/-- The literal of the sample. -/
def sampleBroken : Token := ⟨.string, "\"a\nb\"", .text "a\nb", 1⟩

/-- An assignment of a literal with a line break. -/
def sampleAssigned : Phrase .expression :=
  .assigned (.bareName (sampleOf .identifier "y" 1)) (sampleOf .assign "=" 1)
    (operandOf (.unsigned (.single (.literal sampleBroken (.inr rfl)))))

/-- The derivation of a loop over an empty block and an assignment. What stands behind the literal
is on the second line. -/
def sampleLoop : Phrase .declaration :=
  .stated (.loop (sampleOf .whileKeyword "while" 1)
    (.value (.bareName (sampleOf .identifier "x" 1))) (sampleOf .doKeyword "do" 1)
    (.block (sampleOf .leftBrace "\x7b" 1)
      (.moreDeclarations
        (.moreDeclarations .noDeclarations (.stated (.block (sampleOf .leftBrace "\x7b" 1)
          .noDeclarations (sampleOf .rightBrace "\x7d" 1))))
        (.stated (.expressed sampleAssigned (sampleOf .semicolon ";" 2))))
      (sampleOf .rightBrace "\x7d" 2))
    (sampleOf .endKeyword "end" 2))

private theorem accepted_sampleLoop : Parser.Accepted sampleLoop where
  documented := by
    simp [sampleLoop, sampleAssigned, operandOf, Phrase.bareName, Phrase.Documented, Phrase.tokens,
      sampleOf]
  clear := by
    simp [sampleLoop, sampleAssigned, operandOf, Phrase.bareName, Phrase.Clear,
      Phrase.StartsAsBlock, Phrase.tokens, sampleOf]
  listed := by decide
  nested := by
    have hfive : sampleLoop.nesting = 5 := rfl
    rw [hfive]
    decide
  height := by decide

/-- The assignment of the sample. -/
def sampleAssignment : Expr :=
  .assign (sampleToken .identifier "y") (.literal (.text "a\nb"))

/-- The statement of the sample. -/
def sampleStmt : Stmt :=
  .loop (.name (sampleToken .identifier "x")) (.block [.block [], .expression sampleAssignment])

/-- The source of the loop is read as the statement of the sample. -/
theorem programOf_sampleLoop : programOf "while x do \x7b \x7b \x7d y = \"a\nb\"; \x7d end" =
    .ok [sampleStmt] := by
  have htokens : tokenize "while x do \x7b \x7b \x7d y = \"a\nb\"; \x7d end" =
      .ok (sampleLoop.tokens ++ [(sampleOf .endOfInput "" 2).1]) := by
    decide +kernel
  have haccepted : ∀ d ∈ [sampleLoop], Parser.Accepted d := by
    intro d hd
    obtain rfl := List.mem_singleton.mp hd
    exact accepted_sampleLoop
  have htree : sampleLoop.tree = sampleStmt := rfl
  have hparse := Parser.parse_of_accepted haccepted (sampleOf .endOfInput "" 2).1 rfl []
  exact programOf_eq_ok_iff.mpr ⟨_, htokens, by simpa [htree] using hparse.1⟩

end Sample

/-- The code of a source's program is what the printer writes that knows the level of each line,
unless a key that is a text and stands in an index ends with a line break. Lines end only where the
printer ends them: never within an expression or a literal. -/
theorem program_printed {source : String} {program : Program} (h : programOf source = .ok program)
    (hkeys : ∀ table name, .index table (.literal (.text name)) ∈ Program.parts program →
      name.toList.getLast? ≠ some '\n') :
    JavaScript.program program = joined (printedAll 0 program) ∧
    (program ≠ [] → (JavaScript.program program).toList.splitOn '\n' =
      (printedAll 0 program).map (·.render.toList)) ∧
    (∀ line ∈ printedAll 0 program, OneLine line.render) ∧
    ∀ e ∈ Program.parts program, OneLine (expression e) := by
  have hfields : ∀ table name, .index table (.literal (.text name)) ∈ Program.parts program →
      isPropertyName name = true → OneLine name := fun table name hindex hname =>
    composable_oneLine.plain
      (plain_of_isWord (isWord_of_isPropertyName hname (hkeys table name hindex)))
  have hwrites := writes_of_programOf h hfields
  have hsolid := solid_printedAll 0 program hwrites
  have htext : JavaScript.program program = joined (printedAll 0 program) := by
    rw [joined_printedAll 0 program hwrites, statements_eq_map]
    rfl
  refine ⟨htext, fun hne => ?_, fun line hline => (hsolid line hline).oneLine, fun e he => ?_⟩
  · rw [htext]
    refine splitOn_joined ?_ hsolid
    obtain ⟨s, ss, rfl⟩ := List.exists_cons_of_ne_nil hne
    simp [printedAll, printed_ne_nil 0 s]
  · obtain ⟨top, htop, hpart⟩ := List.mem_flatMap.mp he
    have hexpression := (Stmt.forall_writes_iff.mp hwrites).1 top htop
    exact composable_oneLine.expression e (hexpression.part hpart)

/-- In the loop of the sample the empty block is an empty line, and the line break of the literal
is none of the code. -/
theorem program_printed_loop :
    programOf "while x do \x7b \x7b \x7d y = \"a\nb\"; \x7d end" = .ok [sampleStmt] ∧
      (∀ table name, .index table (.literal (.text name)) ∈ Program.parts [sampleStmt] →
        name.toList.getLast? ≠ some '\n') ∧
      printedAll 0 [sampleStmt] = [.text 0 "while (x) \x7b", .empty,
        .text 1 "y = \"a\\nb\";", .text 0 "\x7d"] ∧
      JavaScript.program [sampleStmt] =
        "while (x) \x7b\n\n  y = \"a\\nb\";\n\x7d" := by
  have hkeys : ∀ table name, .index table (.literal (.text name)) ∈
      Program.parts [sampleStmt] → name.toList.getLast? ≠ some '\n' := by
    intro table name hindex
    simp [sampleStmt, sampleAssignment, Program.parts, Stmt.expressionsOfAll, Stmt.expressions,
      Expr.parts] at hindex
  have hlines : printedAll 0 [sampleStmt] = [.text 0 "while (x) \x7b", .empty,
      .text 1 "y = \"a\\nb\";", .text 0 "\x7d"] := by
    decide +kernel
  refine ⟨programOf_sampleLoop, hkeys, hlines, ?_⟩
  rw [(program_printed programOf_sampleLoop hkeys).1, hlines]
  decide +kernel

end Moonbridge.JavaScript
