import Safelist.Client.ProjectError
import Safelist.Document.Reading
import Safelist.Log.Account
import Safelist.Log.Event

/-!
# Projects

The project of a client is what its source files define: operations with a name,
and fragments. Names of operations do not repeat over all files, nor do names of
fragments. Operations without a name are passed over with a warning.
-/

namespace Safelist.Client

/-- An operation with a name, and the file it is from. -/
structure SourcedOperation where
  /-- The name of the operation. -/
  name : String
  /-- The operation. -/
  operation : Operation
  /-- The path of the file. -/
  path : String

/-- A fragment and the file it is from. -/
structure SourcedFragment where
  /-- The fragment. -/
  fragment : Fragment
  /-- The path of the file. -/
  path : String

/-- What the source files of a client define. -/
structure Project where
  /-- The paths of the files, in order. -/
  files : List String
  /-- The operations, in the order of the files and inside them. -/
  operations : List SourcedOperation
  /-- The fragments, in the order of the files and inside them. -/
  fragments : List SourcedFragment

namespace Project

/-- The project without files. -/
def empty : Project := ⟨[], [], []⟩

/-- The operation of a name. -/
def operation? (p : Project) (name : String) : Option SourcedOperation :=
  p.operations.find? (·.name == name)

/-- The fragment of a name. -/
def fragment? (p : Project) (name : String) : Option SourcedFragment :=
  p.fragments.find? (·.fragment.name == name)

/-- A project with one more definition from a file. -/
def define (p : Project) (path : String) : Definition → Log.Account ProjectError Project
  | .operation op =>
    match op.name with
    | none => do
      .note (Log.Event.anonymousOperationSkipped.warning
        [("path", path), ("kind", op.kind.keyword)])
      pure p
    | some name =>
      match p.operation? name with
      | some first => .fail (.duplicateOperation name first.path path)
      | none => pure { p with operations := p.operations ++ [⟨name, op, path⟩] }
  | .fragment f =>
    match p.fragment? f.name with
    | some first => .fail (.duplicateFragment f.name first.path path)
    | none => pure { p with fragments := p.fragments ++ [⟨f, path⟩] }

/-- A project with more definitions from a file. -/
def defineAll (p : Project) (path : String) : List Definition → Log.Account ProjectError Project
  | [] => pure p
  | definition :: rest => do defineAll (← p.define path definition) path rest

/-- A project with one more file, of a path and a text. -/
def addSource (p : Project) (path text : String) : Log.Account ProjectError Project :=
  match Document.parse text with
  | .error cause => .fail (.unparsable path cause)
  | .ok d => do
    .note (Log.Event.sourceParsed.entry
      [("path", path), ("definitions", toString d.definitions.length)])
    let p ← p.defineAll path d.definitions
    pure { p with files := p.files ++ [path] }

/-- A project with more files. -/
def addSources (p : Project) : List (String × String) → Log.Account ProjectError Project
  | [] => pure p
  | (path, text) :: rest => do addSources (← p.addSource path text) rest

/-- The project of some files, given by their paths and texts. -/
def ofSources (sources : List (String × String)) : Log.Account ProjectError Project :=
  empty.addSources sources

end Project

end Safelist.Client
