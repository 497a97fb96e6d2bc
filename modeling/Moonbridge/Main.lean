import Moonbridge.Command

/-!
# The program

The command on the disk of the machine.
-/

namespace Moonbridge

/-- The number of an error, which some operations of the machine report negated. -/
def errorNumber (code : UInt32) : Nat :=
  if code.toNat < UInt32.size / 2 then code.toNat else UInt32.size - code.toNat

/-- The refusal behind an error of the machine. -/
def refusalOf : IO.Error → Files.Refusal
  | .noFileOrDirectory .. => .notFound
  | .alreadyExists .. => .alreadyExists
  | .inappropriateType _ code _ =>
    if errorNumber code = 20 then .notDirectory else .isDirectory
  | .permissionDenied _ code _ => .other (errorNumber code) "Permission denied"
  | .resourceExhausted _ code details => .other (errorNumber code) details
  | .otherError code details => .other (errorNumber code) details
  | error => .other 5 (toString error)

/-- Runs an operation of the machine and keeps its refusal. -/
def attempt {α : Type} (action : IO α) : IO (Except Files.Refusal α) := do
  try
    return .ok (← action)
  catch error =>
    return .error (refusalOf error)

/-- Whether an operation of the machine succeeds. -/
def succeeds {α : Type} (action : IO α) : IO Bool := do
  try
    discard action
    return true
  catch _ =>
    return false

/-- The disk of the machine. A path with a dot behind it leads somewhere exactly if it leads
to a directory. -/
def machine : Files.Disk IO where
  read path := attempt (IO.FS.readBinFile path)
  write path content := attempt (IO.FS.writeBinFile path content)
  makeDirectory path := attempt (IO.FS.createDir path)
  isPresent path := succeeds (IO.FS.realPath path)
  isDirectory path := succeeds (IO.FS.realPath (path ++ "/."))

end Moonbridge

/-- Runs the command, prints what it has to say and ends with its exit code. -/
def main (args : List String) : IO UInt32 := do
  let outcome ← Moonbridge.Command.run Moonbridge.machine args
  IO.print outcome.stdout
  IO.eprint outcome.stderr
  return outcome.exit.toUInt32
