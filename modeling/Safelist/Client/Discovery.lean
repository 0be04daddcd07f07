import Safelist.Client.Project
import Safelist.Client.Settings
import Safelist.Machine.Basic

/-!
# Discovery of source files

The paths to search are taken in order. A file that is named is a source file
whatever it is called; below a directory the source files are those whose name
has a certain ending. Directories are read one by one, and what is in one is looked
at in the order of the names. Links below a directory are not entered. Paths under
an excluded path are left out, and a file that is reached twice counts once.
-/

namespace Safelist.Client

/-- The endings of the names of source files. -/
def sourceExtensions : List String := ["graphql", "gql"]

/-- The names of directories that are not entered. -/
def skippedDirectories : List String := ["node_modules", ".git"]

/-- Whether a path is left out of the search. -/
def isExcluded (excludes : List String) (path : String) : Bool :=
  excludes.any fun e => Files.Path.isWithin e path

/-- Whether a file of this name is a source file. -/
def isSourceName (name : String) : Bool :=
  (Files.Path.extension? name).any sourceExtensions.contains

/-- Whether a directory of this name is entered. -/
def isEntered (name : String) : Bool := !skippedDirectories.contains name

/-- Paths without those that lead where an earlier one leads, in other spellings. -/
def distinctPaths (seen : List (List String)) : List String → List String
  | [] => []
  | path :: rest =>
    if seen.contains (Files.Path.key path) then distinctPaths seen rest
    else path :: distinctPaths (Files.Path.key path :: seen) rest

variable {m : Type → Type} [Monad m] [Machine m]

mutual

/-- The source files below a directory. -/
def sourcesBelow (excludes : List String) (directory : String) :
    ExceptT ProjectError m (List String) := do
  match ← (Machine.list directory : m _) with
  | .error fault => throw (.unreadable directory fault)
  | .ok entries =>
    sourcesAmong excludes directory (entries.mergeSort fun a b => a.name ≤ b.name)
termination_by (Files.maxPathBytes + 1 - directory.utf8ByteSize, 2, 0)
decreasing_by exact .right _ (.left _ _ (Nat.lt_succ_self 1))

/-- The source files among some entries of a directory and below them. -/
def sourcesAmong (excludes : List String) (directory : String) :
    List (Files.Listed directory) → ExceptT ProjectError m (List String)
  | [] => pure []
  | entry :: rest => do
    let first ← sourcesAt excludes directory entry
    pure (first ++ (← sourcesAmong excludes directory rest))
termination_by entries => (Files.maxPathBytes + 1 - directory.utf8ByteSize, 1, entries.length)
decreasing_by
  · exact .right _ (.left _ _ Nat.zero_lt_one)
  · exact .right _ (.right _ (Nat.lt_succ_self _))

/-- The source file that an entry of a directory is, or those below it. -/
def sourcesAt (excludes : List String) (directory : String) (entry : Files.Listed directory) :
    ExceptT ProjectError m (List String) :=
  let path := Files.Path.join directory entry.name
  if isExcluded excludes path then pure []
  else if entry.isDirectory then
    if isEntered entry.name then sourcesBelow excludes path else pure []
  else pure (if isSourceName entry.name then [path] else [])
termination_by (Files.maxPathBytes + 1 - directory.utf8ByteSize, 0, 0)
decreasing_by
  -- The path of a directory that can be listed is short, and its entries have longer ones.
  exact .left _ _ (Nat.sub_lt_sub_left (Nat.lt_succ_of_le entry.fits)
    (Files.size_lt_join entry.legal directory))

end

/-- The source files that a path to search leads to. -/
def sourcesOf (excludes : List String) (path : String) : ExceptT ProjectError m (List String) := do
  if isExcluded excludes path then pure []
  else
    match ← (Machine.kindOf path : m _) with
    | some .file => pure [path]
    | some .directory => sourcesBelow excludes path
    | none => throw (.includeNotFound path)

/-- The source files that some paths to search lead to, with repetitions. -/
def sourcesOfAll (excludes : List String) : List String → ExceptT ProjectError m (List String)
  | [] => pure []
  | path :: rest => do
    let first ← sourcesOf excludes path
    pure (first ++ (← sourcesOfAll excludes rest))

/-- The source files of a client. -/
def discover (s : Settings) : ExceptT ProjectError m (List String) := do
  pure (distinctPaths [] (← sourcesOfAll s.excludes s.includes))

/-- The paths of files with their texts. -/
def readSources : List String → ExceptT ProjectError m (List (String × String))
  | [] => pure []
  | path :: rest => do
    match ← (Machine.readText path : m _) with
    | .error fault => throw (.unreadable path fault)
    | .ok text => pure ((path, text) :: (← readSources rest))

/-- Load the project of a client. All files are read before the first is parsed. -/
def Project.load (s : Settings) : ExceptT ProjectError m Project := do
  (Machine.report .projectLoadBegin [("client", s.name)] : m Unit)
  let sources ← readSources (← discover s)
  let p ← Machine.tell (Project.ofSources sources)
  (Machine.report .projectLoadComplete
    [("client", s.name), ("files", toString p.files.length),
      ("operations", toString p.operations.length),
      ("fragments", toString p.fragments.length)] : m Unit)
  pure p

end Safelist.Client
