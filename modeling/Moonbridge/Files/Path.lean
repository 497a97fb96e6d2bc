/-!
# Paths

A path is a text in which slashes separate the components. Parents are found on the text
itself, so that a message can show the path that was given: the parent of a path is what
stands before its last slashes.
-/

namespace Moonbridge.Files

/-- Splits at each slash; `last` holds the characters since the latest one, in reverse. -/
def splitSlashes (last : List Char) : List Char → List String
  | [] => [String.ofList last.reverse]
  | c :: rest =>
    if c = '/' then String.ofList last.reverse :: splitSlashes [] rest
    else splitSlashes (c :: last) rest

/-- The components of a path. Slashes in a row count as one, and those at the ends as none. -/
def components (path : String) : List String :=
  (splitSlashes [] path.toList).filter (· ≠ "")

/-- Whether a path ends with a slash. -/
def endsWithSlash (path : String) : Bool := path.toList.getLast? == some '/'

/-- The text behind the last slash. -/
def lastComponent (path : String) : String :=
  String.ofList (path.toList.reverse.takeWhile (· ≠ '/')).reverse

/-- The parent of a path whose characters are given in reverse. The slashes before the last
component are dropped, unless nothing else is left. -/
def parentReversed (path : List Char) : List Char :=
  let before := path.dropWhile (· ≠ '/')
  if before.all (· = '/') then before else before.dropWhile (· = '/')

/-- A path whose characters are given in reverse, and all its parents. -/
def ancestorsReversed (path : List Char) : List String :=
  if path = [] then []
  else
    String.ofList path.reverse ::
      (if (parentReversed path).length < path.length then
        ancestorsReversed (parentReversed path)
      else [])
termination_by path.length

/-- The parent of a path; a path of one component has the empty parent. -/
def parent (path : String) : String :=
  String.ofList (parentReversed path.toList.reverse).reverse

/-- A path and all its parents, the path itself first. The empty path is none of them. -/
def ancestors (path : String) : List String := ancestorsReversed path.toList.reverse

end Moonbridge.Files
