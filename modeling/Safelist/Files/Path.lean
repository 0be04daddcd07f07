/-!
# Paths

A path is a text whose pieces stand between slashes. Empty pieces and single
dots stay in place; two dots go up, but only walking a tree can tell where that
leads, so nothing here takes them out. Paths are kept as they were written, and
two spellings are the same path when their keys are equal.
-/

namespace Safelist.Files.Path

/-- The pieces between slashes. There is always one more piece than there are slashes. -/
def split : List Char → List (List Char)
  | [] => [[]]
  | c :: rest =>
    if c = '/' then [] :: split rest
    else
      match split rest with
      | [] => [[c]]
      | piece :: more => (c :: piece) :: more

/-- The pieces of a path. -/
def pieces (path : String) : List String := (split path.toList).map String.ofList

/-- Whether a piece stays in place. -/
def isSilent (piece : String) : Bool := piece = "" || piece = "."

/-- The piece that goes up. -/
def up : String := ".."

/-- Whether a path starts at the root. -/
def isAbsolute (path : String) : Bool := path.toList.head? = some '/'

/-- The pieces of a path that lead somewhere. -/
def names (path : String) : List String := (pieces path).filter fun piece => !isSilent piece

/-- What is common to all spellings of a path. -/
def key (path : String) : List String := if isAbsolute path then "/" :: names path else names path

/-- Whether a path is another one or lies below it, as far as their spellings tell. -/
def isWithin (outer path : String) : Bool := (key outer).isPrefixOf (key path)

/-- A path taken from another one. An absolute path stays as it is, and an empty one leaves
a slash at the end. -/
def join (base path : String) : String :=
  if isAbsolute path || base = "" then path
  else if base.toList.getLast? = some '/' then base ++ path
  else base ++ "/" ++ path

/-- The last name of a path, unless there is none or it goes up. -/
def fileName? (path : String) : Option String :=
  match (names path).getLast? with
  | some name => if name = up then none else some name
  | none => none

/-- What is never taken away from the front of a path, and what follows it: the slash of
an absolute path, or a dot that is the first piece. -/
def anchor : List Char → List Char × List Char
  | '/' :: rest => (['/'], rest)
  | ['.'] => (['.'], [])
  | '.' :: '/' :: rest => (['.'], '/' :: rest)
  | path => ([], path)

/-- Pieces without those at the end that stay in place. -/
def trimmed (pieces : List (List Char)) : List (List Char) :=
  (pieces.reverse.dropWhile fun piece => isSilent (String.ofList piece)).reverse

/-- A path without its last piece and without the slashes and dots that stood before it.
The root and the empty path have no parent. -/
def parent? (path : String) : Option String :=
  let (front, rest) := anchor path.toList
  match trimmed (split rest) with
  | [] => if front = ['.'] then some "" else none
  | many =>
    some (String.ofList (front ++ List.intercalate ['/'] (trimmed many.dropLast)))

/-- The path of a sibling: the last name is replaced. -/
def withFileName (path name : String) : String := join ((parent? path).getD "") name

/-- The characters after the last dot of a name. A dot in front does not count. -/
def extension? (name : String) : Option String :=
  let ending := name.toList.reverse.takeWhile (· ≠ '.')
  if ending.length + 1 < name.length then some (String.ofList ending.reverse) else none

/-- There is always a piece. -/
theorem split_ne_nil (path : List Char) : split path ≠ [] := by
  cases path with
  | nil => simp [split]
  | cons c rest =>
    unfold split
    split
    · simp
    · split <;> simp

end Safelist.Files.Path
