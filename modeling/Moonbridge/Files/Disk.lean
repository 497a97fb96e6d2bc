import Moonbridge.Files.Path
import Moonbridge.Text.Quoted

/-!
# Disks

A disk offers five operations on paths, in any monad. The directories on the way to a file
are made by those operations alone: the parents first, a directory that is there already is
left alone, and the path of the operation that was refused is kept for the message.
-/

namespace Moonbridge.Files

/-- Why an operation on a path was refused. -/
inductive Refusal
  | notFound
  | alreadyExists
  | notDirectory
  | isDirectory
  | other (code : Nat) (text : String)
  deriving DecidableEq, Repr

namespace Refusal

/-- The number of a refusal. -/
def code : Refusal → Nat
  | notFound => 2
  | alreadyExists => 17
  | notDirectory => 20
  | isDirectory => 21
  | other code _ => code

/-- The wording of a refusal. -/
def text : Refusal → String
  | notFound => "No such file or directory"
  | alreadyExists => "File exists"
  | notDirectory => "Not a directory"
  | isDirectory => "Is a directory"
  | other _ text => text

end Refusal

/-- A refusal and the path that was refused. -/
structure Denial where
  refusal : Refusal
  path : String
  deriving DecidableEq, Repr

/-- The wording of a refusal with its number and the quoted path. -/
def Denial.message (d : Denial) : String :=
  "[Errno " ++ toString d.refusal.code ++ "] " ++ d.refusal.text ++ ": " ++ Text.quoted d.path

/-- The operations of a disk. -/
structure Disk (m : Type → Type) where
  /-- The content of a file. -/
  read : String → m (Except Refusal ByteArray)
  /-- Makes or replaces a file. -/
  write : String → ByteArray → m (Except Refusal Unit)
  /-- Makes a directory in one that is there. -/
  makeDirectory : String → m (Except Refusal Unit)
  /-- Whether there is a file or a directory. -/
  isPresent : String → m Bool
  /-- Whether there is a directory. -/
  isDirectory : String → m Bool

namespace Disk

variable {m : Type → Type} [Monad m]

/-- Makes a directory unless it is there. -/
def ensureOne (disk : Disk m) (path : String) : m (Except Denial Unit) := do
  match ← disk.makeDirectory path with
  | .ok () => return .ok ()
  | .error refusal =>
    if ← disk.isDirectory path then return .ok () else return .error ⟨refusal, path⟩

/-- Makes a directory and those of its parents that are missing. The list holds the path
and its parents, the path first. A parent that turns out to be there is no reason to stop,
and a path that ends in a single dot is there as soon as its parent is. -/
def ensure (disk : Disk m) : List String → m (Except Denial Unit)
  | [] => return .ok ()
  | [path] => disk.ensureOne path
  | path :: parent :: parents => do
    if ← disk.isPresent parent then disk.ensureOne path
    else
      match ← disk.ensure (parent :: parents) with
      | .error denial =>
        if denial.refusal ≠ .alreadyExists then return .error denial
        else if lastComponent path = "." then return .ok ()
        else disk.ensureOne path
      | .ok () =>
        if lastComponent path = "." then return .ok () else disk.ensureOne path

/-- Writes a file, and makes the directories on the way to it. -/
def save (disk : Disk m) (path : String) (content : ByteArray) : m (Except Denial Unit) := do
  match ← disk.ensure (ancestors (parent path)) with
  | .error denial => return .error denial
  | .ok () =>
    match ← disk.write path content with
    | .error refusal => return .error ⟨refusal, path⟩
    | .ok () => return .ok ()

end Disk

end Moonbridge.Files
