import Moonbridge.Proofs.Node.Typed
import Moonbridge.Proofs.Parser.Sources
import Moonbridge.Proofs.Parser.Termination
import Moonbridge.Proofs.Token.Stream

/-!
# The ways to run a source agree

A program that was read has code and a dump, whatever its tokens looked like, so that the last
stage never fails. The program, the code, the reported outcome and the dump of a source therefore
exist together, and where they do not, all of them fail with one error: that of the lexer or that
of the parser. The parser never runs out of the tokens of a source, because the lexer marks its end.
-/

namespace Moonbridge

/-- The error of a source is that of the stage which failed, with its line and its message. -/
inductive StageError (source : String) (e : SourceError) : Prop
  | lexical {error : LexError} (run : tokenize source = .error error)
      (cause : e = .lexical error) (line : e.line? = some error.line)
      (message : e.message = "transpile error: " ++ error.message)
  | grammatical {tokens : List Token} {error : ParseError} (read : tokenize source = .ok tokens)
      (run : parse tokens = .error (.rejected error)) (cause : e = .grammatical (.rejected error))
      (line : e.line? = some error.line)
      (message : e.message = "transpile error: " ++ error.message)

/-- All ways to run a source fail with one error. -/
structure Fails (source : String) (e : SourceError) : Prop where
  stage : StageError source e
  read : programOf source = .error e
  code : compile source = .error e
  outcome : tryCompile source = ⟨none, some e⟩
  dump : dumpAfter .parse source = .error e

/-- All ways to run a source succeed, with what the untyped tree of its program gives. -/
structure Succeeds (source : String) (program : Program) : Prop where
  read : programOf source = .ok program
  code : ∃ js, Node.javaScript (Stmt.nodes program) = .ok js ∧ compile source = .ok js ∧
    tryCompile source = ⟨some js, none⟩
  dump : ∃ json, Node.dumpProgram (Stmt.nodes program) = .ok json ∧
    dumpAfter .parse source = .ok (json.print (.indented 2))

section Sources

variable {source : String} {e : SourceError}

/-- The parser does not run out of the tokens of a source. -/
theorem parse_ne_exhausted {tokens : List Token} (h : tokenize source = .ok tokens) :
    parse tokens ≠ .error .exhausted := by
  obtain ⟨mark, hmark, hend⟩ := hasEnd_of_tokenize h
  intro hparse
  simp [Parser.parse_eq_exhausted_iff.mp hparse mark hmark] at hend

/-- The first phase fails with the fault that the source has. -/
theorem tokensOf_eq_error_iff :
    tokensOf source = .error e ↔ ∃ error, tokenize source = .error error ∧ e = .lexical error :=
  mapError_eq_error_iff

/-- A source without a program has an error of the lexer or of the parser. -/
theorem stageError_of_programOf (h : programOf source = .error e) : StageError source e := by
  cases htokens : tokenize source with
  | error error =>
    obtain rfl := Except.error.inj ((programOf_of_lexical htokens).symm.trans h)
    exact .lexical htokens rfl rfl rfl
  | ok tokens =>
    rw [programOf_of_tokenize htokens] at h
    obtain ⟨failure, hparse, rfl⟩ := mapError_eq_error_iff.mp h
    cases failure with
    | exhausted => exact absurd hparse (parse_ne_exhausted htokens)
    | rejected error => exact .grammatical htokens hparse rfl rfl rfl

/-- A source that is not read fails at every later phase with the same error. -/
theorem fails_of_programOf (h : programOf source = .error e) : Fails source e where
  stage := stageError_of_programOf h
  read := h
  code := by rw [compile, h]; rfl
  outcome := by rw [tryCompile, h]
  dump := by rw [dumpAfter, h]; rfl

/-- A source that is read succeeds at every later phase. -/
theorem succeeds_of_programOf {program : Program} (h : programOf source = .ok program) :
    Succeeds source program where
  read := h
  code := by
    refine ⟨_, javaScript_nodes program, ?_, ?_⟩
    · rw [compile, h]
      rfl
    · rw [tryCompile, h]
  dump := by
    refine ⟨_, dumpProgram_nodes program, ?_⟩
    rw [dumpAfter, h]
    rfl

/-- Stopping after the lexer fails with the errors of the lexer. -/
theorem dumpAfter_lex_eq_error_iff : dumpAfter .lex source = .error e ↔
    ∃ error, tokenize source = .error error ∧ e = .lexical error := by
  rw [← tokensOf_eq_error_iff, dumpAfter]
  cases tokensOf source with
  | error e' => simp [bind, Except.bind]
  | ok tokens => simp [bind, Except.bind, pure, Except.pure]

end Sources

/-- No stage fails on what the one before it returns. Every program that is read from tokens has
code and a dump; so the ways to run a source all succeed, or all fail with the same error of the
lexer or the parser. Stopping after the lexer fails exactly when the lexer does. -/
theorem stages_agree :
    (∀ (tokens : List Token) (program : Program), parse tokens = .ok program →
      Node.javaScript (Stmt.nodes program) = .ok (JavaScript.program program) ∧
        Node.dumpProgram (Stmt.nodes program) = .ok (dumpProgram program)) ∧
    ∀ source : String,
      ((∃ program, Succeeds source program) ∨ ∃ e, Fails source e) ∧
      ∀ e, dumpAfter .lex source = .error e ↔
        ∃ error, tokenize source = .error error ∧ e = .lexical error := by
  refine ⟨fun _ program _ => ⟨javaScript_nodes program, dumpProgram_nodes program⟩, ?_⟩
  intro source
  refine ⟨?_, fun e => dumpAfter_lex_eq_error_iff⟩
  cases hprogram : programOf source with
  | ok program => exact Or.inl ⟨program, succeeds_of_programOf hprogram⟩
  | error e => exact Or.inr ⟨e, fails_of_programOf hprogram⟩

/-- The program of an assignment has code and a dump. -/
theorem stages_agree_sample :
    Node.javaScript (Stmt.nodes [Parser.sampleTree]) =
        .ok (JavaScript.program [Parser.sampleTree]) ∧
      Node.dumpProgram (Stmt.nodes [Parser.sampleTree]) =
        .ok (dumpProgram [Parser.sampleTree]) :=
  stages_agree.1 Parser.sampleTokens [Parser.sampleTree] Parser.parse_sample

end Moonbridge
