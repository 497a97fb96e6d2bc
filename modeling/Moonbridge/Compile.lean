import Moonbridge.Dump
import Moonbridge.JavaScript.Code
import Moonbridge.Parser.Statement
import Moonbridge.Token.Lexer

/-!
# From source to output

A source is read into tokens, the tokens into a program and the program into JavaScript.
Work may stop after either of the first two phases, and its result is then dumped. What
stops a phase is an error of the source, which the error of the whole run keeps.
-/

namespace Moonbridge

/-- Why a source has no output. -/
inductive SourceError
  | lexical (error : LexError)
  | grammatical (failure : Parser.Failure)
  deriving DecidableEq, Repr

/-- The wording of a failure of the parser. -/
def Parser.Failure.message : Parser.Failure → String
  | rejected error => error.message
  | exhausted => "list index out of range"

namespace SourceError

/-- The wording of the error of a phase. -/
def detail : SourceError → String
  | lexical error => error.message
  | grammatical failure => failure.message

/-- The wording of the error of a whole run. -/
def message (e : SourceError) : String := "transpile error: " ++ e.detail

/-- The line that an error stands on. -/
def line? : SourceError → Option Int
  | lexical error => some error.line
  | grammatical (.rejected error) => some error.line
  | grammatical .exhausted => none

end SourceError

/-- The tokens of a source. -/
def tokensOf (source : String) : Except SourceError (List Token) :=
  (tokenize source).mapError .lexical

/-- The program of a source. -/
def programOf (source : String) : Except SourceError Program := do
  (parse (← tokensOf source)).mapError .grammatical

/-- The JavaScript code of a source. -/
def compile (source : String) : Except SourceError String :=
  return JavaScript.program (← programOf source)

/-- The outcome of a run that reports errors of the source instead of failing: the code, or why
there is none. -/
structure Outcome where
  output : Option String
  error : Option SourceError
  deriving DecidableEq, Repr

/-- Whether a run had no error. -/
def Outcome.ok (o : Outcome) : Bool := o.error.isNone

/-- The JavaScript code of a source, or the error of the source. -/
def tryCompile (source : String) : Outcome :=
  match programOf source with
  | .ok program => ⟨some (JavaScript.program program), none⟩
  | .error e => ⟨none, some e⟩

/-- The phases after which work can stop. -/
inductive Phase
  | lex
  | parse
  deriving DecidableEq, Repr

namespace Phase

/-- The name of a phase on the command line. -/
def name : Phase → String
  | lex => "lex"
  | parse => "parse"

/-- The phase of a given name. -/
def ofName? (name : String) : Option Phase := [lex, parse].find? (·.name == name)

end Phase

/-- The result of a phase as an indented document. -/
def dumpAfter (phase : Phase) (source : String) : Except SourceError String := do
  match phase with
  | .lex => return (dumpTokens (← tokensOf source)).print (.indented 2)
  | .parse => return (dumpProgram (← programOf source)).print (.indented 2)

/-- The output of a run: the code, or the result of the phase to stop after. -/
def output (stopAt : Option Phase) (source : String) : Except SourceError String :=
  match stopAt with
  | none => compile source
  | some phase => dumpAfter phase source

end Moonbridge
