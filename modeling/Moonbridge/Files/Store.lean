import Moonbridge.Files.Disk

/-!
# File stores

A file store is a disk as a value: a finite map from places to files and directories, where
a place is the list of the components on the way to it. The root is always a directory, is
where relative paths start, and is its own parent. A path is followed component by
component through directories that are there; only its last component may be missing.
-/

namespace Moonbridge.Files

/-- What stands at a place. -/
inductive Item
  | directory
  | file (content : ByteArray)

/-- The contents of files are compared as arrays. -/
instance : DecidableEq Item
  | .directory, .directory => isTrue rfl
  | .directory, .file _ => isFalse nofun
  | .file _, .directory => isFalse nofun
  | .file content, .file other =>
    decidable_of_iff (content.data = other.data) (by rw [Item.file.injEq, ByteArray.ext_iff])

/-- The components on the way from the root. -/
abbrev Place := List String

/-- Files and directories at their places. -/
structure Store where
  items : List (Place × Item)
  deriving DecidableEq

/-- Where a path leads. -/
structure Target where
  place : Place
  /-- Whether the last component is a name, and neither a dot nor two. -/
  isNamed : Bool
  /-- Whether a slash follows the last component. -/
  hasSlash : Bool
  deriving DecidableEq, Repr

namespace Store

/-- The store with nothing below its root. -/
def empty : Store := ⟨[]⟩

/-- What stands at a place. -/
def get? (s : Store) (place : Place) : Option Item :=
  if place = [] then some .directory else s.items.lookup place

/-- Puts an item at a place, in the place of what stood there. -/
def put (s : Store) (place : Place) (item : Item) : Store :=
  ⟨(place, item) :: s.items.filter (·.1 ≠ place)⟩

/-- An item is found where it was put. -/
theorem get?_put_self (s : Store) {place : Place} (item : Item) (h : place ≠ []) :
    (s.put place item).get? place = some item := by
  simp [get?, put, h]

/-- Dropping the items at one place changes nothing elsewhere. -/
theorem lookup_filter_ne {place other : Place} (h : other ≠ place)
    (items : List (Place × Item)) :
    (items.filter (·.1 ≠ place)).lookup other = items.lookup other := by
  induction items with
  | nil => rfl
  | cons entry items ih =>
    obtain ⟨p, i⟩ := entry
    by_cases hp : p = place
    · have hb : (other == p) = false := beq_eq_false_iff_ne.mpr (hp ▸ h)
      rw [List.filter_cons_of_neg (by simpa using hp), List.lookup_cons, hb, ih]
    · rw [List.filter_cons_of_pos (by simpa using hp), List.lookup_cons, List.lookup_cons, ih]

/-- Putting an item somewhere changes nothing elsewhere. -/
theorem get?_put_of_ne (s : Store) {place other : Place} (item : Item) (h : other ≠ place) :
    (s.put place item).get? other = s.get? other := by
  by_cases ho : other = []
  · simp [get?, ho]
  · simp only [get?, put, ho, if_false, List.lookup_cons, beq_eq_false_iff_ne.mpr h]
    exact lookup_filter_ne h s.items

/-- Follows components from a directory. -/
def follow (s : Store) (start : Place) : List String → Except Refusal (Place × Bool)
  | [] => .ok (start, false)
  | name :: rest =>
    if name = "." then s.follow start rest
    else if name = ".." then s.follow start.dropLast rest
    else if rest.isEmpty then .ok (start ++ [name], true)
    else
      match s.get? (start ++ [name]) with
      | none => .error .notFound
      | some (.file _) => .error .notDirectory
      | some .directory => s.follow (start ++ [name]) rest

/-- Where a path leads. The empty path leads nowhere. -/
def resolve (s : Store) (path : String) : Except Refusal Target :=
  if path = "" then .error .notFound
  else do
    let (place, isNamed) ← s.follow [] (components path)
    return ⟨place, isNamed, endsWithSlash path⟩

/-- What a path leads to. A file is not found behind a slash. -/
def find (s : Store) (path : String) : Except Refusal Item := do
  let target ← s.resolve path
  match s.get? target.place with
  | none => .error .notFound
  | some .directory => return .directory
  | some (.file content) =>
    if target.hasSlash then .error .notDirectory else return .file content

/-- The content of the file that a path leads to. -/
def read (s : Store) (path : String) : Except Refusal ByteArray := do
  match ← s.find path with
  | .directory => .error .isDirectory
  | .file content => return content

/-- The store after a file was made or replaced. A path that ends with a slash is that of a
directory, whether there is one or not. -/
def write (s : Store) (path : String) (content : ByteArray) : Except Refusal Store := do
  let target ← s.resolve path
  if target.isNamed && target.hasSlash then .error .isDirectory
  else if s.get? target.place = some .directory then .error .isDirectory
  else return s.put target.place (.file content)

/-- The store after a directory was made. -/
def makeDirectory (s : Store) (path : String) : Except Refusal Store := do
  let target ← s.resolve path
  if target.isNamed && (s.get? target.place).isNone then
    return s.put target.place .directory
  else .error .alreadyExists

/-- Whether a path leads to a file or a directory. -/
def isPresent (s : Store) (path : String) : Bool := (s.find path).toOption.isSome

/-- Whether a path leads to a directory. -/
def isDirectory (s : Store) (path : String) : Bool :=
  (s.find path).toOption == some .directory

/-- The place that a path names, whatever stands on the way to it. -/
def placeOf (path : String) : Place :=
  (components path).foldl (fun place name =>
    if name = "." then place else if name = ".." then place.dropLast else place ++ [name]) []

/-- Puts an item at a place, and directories on the way to it where there is nothing. -/
def place (s : Store) (path : String) (item : Item) : Store :=
  let target := placeOf path
  let ways := (List.range target.length).map target.take
  let s := ways.foldl (fun s way => if (s.get? way).isSome then s else s.put way .directory) s
  s.put target item

/-- Every file and directory with its path, in the order of the paths. -/
def listing (s : Store) : List (String × Item) :=
  (s.items.map fun (place, item) => ("/".intercalate place, item)).mergeSort
    fun a b => !(b.1 < a.1)

/-- Replaces the state if there is a new one. -/
def update (change : Store → Except Refusal Store) : StateM Store (Except Refusal Unit) := do
  match change (← get) with
  | .error refusal => return .error refusal
  | .ok s =>
    set s
    return .ok ()

/-- A store as a disk. -/
def disk : Disk (StateM Store) where
  read path := return (← get).read path
  write path content := update (·.write path content)
  makeDirectory path := update (·.makeDirectory path)
  isPresent path := return (← get).isPresent path
  isDirectory path := return (← get).isDirectory path

end Store

end Moonbridge.Files
