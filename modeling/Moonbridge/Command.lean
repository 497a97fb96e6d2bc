import Moonbridge.Compile
import Moonbridge.Files.Disk

/-!
# The command

The command reads a source from one path and writes its output to another. Its arguments
are the two paths, in this order, and options anywhere among them. A run ends with an exit
code and with what it printed; it works on any disk.
-/

namespace Moonbridge

namespace Command

/-- The help text. -/
def usage : String :=
  "luajs [OPTIONS] INPUT OUTPUT\n" ++
  "\n" ++
  "Transpile the Lua program in INPUT to JavaScript and write it to OUTPUT.\n" ++
  "Missing directories in OUTPUT's path are created.\n" ++
  "\n" ++
  "Options:\n" ++
  "  --stop-at PHASE     Stop after phase and write it as JSON: lex, parse\n" ++
  "  --help              Show this help message\n"

/-- What the arguments ask for. -/
structure Request where
  stopAt : Option Phase
  input : String
  output : String
  deriving DecidableEq, Repr

/-- Why arguments are no request. -/
inductive Stop
  | help
  | missingPhase
  | unknownFlag (flag : String)
  | unknownPhase (name : String)
  | wrongPaths
  deriving DecidableEq, Repr

/-- How a run ends: its exit code and what it printed. -/
structure Outcome where
  exit : Nat
  stdout : String
  stderr : String
  deriving DecidableEq, Repr

/-- The end of a run that fails with a message. -/
def Outcome.failure (exit : Nat) (message : String) : Outcome :=
  ⟨exit, "", "error: " ++ message ++ "\n"⟩

/-- The end of a run without a request. -/
def Stop.outcome : Stop → Outcome
  | help => ⟨0, usage, ""⟩
  | missingPhase => .failure 2 "--stop-at requires an argument"
  | unknownFlag flag => .failure 2 ("unknown flag '" ++ flag ++ "'")
  | unknownPhase name => .failure 2 ("unknown phase '" ++ name ++ "'")
  | wrongPaths => ⟨2, "", "error: expected INPUT and OUTPUT paths\n" ++ usage⟩

/-- Goes through the arguments from left to right, up to the first one that ends the run:
the name of the last phase and the paths in order. -/
def collect (phase : Option String) (paths : List String) :
    List String → Except Stop (Option String × List String)
  | [] => .ok (phase, paths.reverse)
  | [arg] =>
    if arg = "--help" ∨ arg = "-h" then .error .help
    else if arg = "--stop-at" then .error .missingPhase
    else if arg.toList.head? = some '-' then .error (.unknownFlag arg)
    else .ok (phase, (arg :: paths).reverse)
  | arg :: next :: rest =>
    if arg = "--help" ∨ arg = "-h" then .error .help
    else if arg = "--stop-at" then collect (some next) paths rest
    else if arg.toList.head? = some '-' then .error (.unknownFlag arg)
    else collect phase (arg :: paths) (next :: rest)

/-- The phase of a name that may be absent. -/
def checkPhase : Option String → Except Stop (Option Phase)
  | none => .ok none
  | some name =>
    match Phase.ofName? name with
    | some phase => .ok (some phase)
    | none => .error (.unknownPhase name)

/-- What the arguments ask for. -/
def parseArgs (args : List String) : Except Stop Request := do
  let (phase, paths) ← collect none [] args
  let stopAt ← checkPhase phase
  match paths with
  | [input, output] => return ⟨stopAt, input, output⟩
  | _ => .error .wrongPaths

/-- The message for an input that cannot be read. -/
def unreadable (path : String) : Files.Refusal → String
  | .notFound => path ++ ": No such file or directory"
  | refusal => "cannot open '" ++ path ++ "': " ++ Files.Denial.message ⟨refusal, path⟩

/-- The source in a file, or the message why there is none. -/
def source (path : String) (content : Except Files.Refusal ByteArray) : Except String String :=
  match content with
  | .error refusal => .error (unreadable path refusal)
  | .ok bytes =>
    match String.fromUTF8? bytes with
    | some text => .ok text
    | none => .error (path ++ ": invalid utf-8")

/-- The text to write for the content of the input, or the message why there is none. -/
def result (request : Request) (content : Except Files.Refusal ByteArray) :
    Except String String := do
  (output request.stopAt (← source request.input content)).mapError (·.message)

variable {m : Type → Type} [Monad m]

/-- Answers a request. -/
def perform (disk : Files.Disk m) (request : Request) : m Outcome := do
  match result request (← disk.read request.input) with
  | .error message => return .failure 1 message
  | .ok text =>
    match ← disk.save request.output text.toUTF8 with
    | .error denial =>
      return .failure 1 ("cannot write '" ++ request.output ++ "': " ++ denial.message)
    | .ok () =>
      return ⟨0, "transpiled " ++ request.input ++ " -> " ++ request.output ++ "\n", ""⟩

/-- A whole run. -/
def run (disk : Files.Disk m) (args : List String) : m Outcome :=
  match parseArgs args with
  | .error stop => return stop.outcome
  | .ok request => perform disk request

end Command

end Moonbridge
