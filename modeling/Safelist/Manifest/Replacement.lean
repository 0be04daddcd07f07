import Safelist.Files.Path
import Safelist.Machine.Basic
import Safelist.Manifest.Failure

/-!
# Replacement of files

A file gets its new content in one step: the content is written to a sibling
under a temporary name, and the sibling is moved over the file. When a step
fails the sibling is removed, and the file is as it was.
-/

namespace Safelist.Manifest

/-- The temporary sibling of a path. -/
def temporary? (target : String) : Option String :=
  (Files.Path.fileName? target).map fun name =>
    Files.Path.withFileName target ("." ++ name ++ ".tmp")

/-- The action that a step of writing is part of. -/
def Action.ofStep : WriteStep → Action
  | .create => .create
  | .write => .write
  | .sync => .sync

variable {m : Type → Type} [Monad m] [Machine m]

/-- Give a file a new content, in one step for whoever looks at it. -/
def replaceFile (target text : String) : ExceptT Failure m Unit :=
  match temporary? target with
  | none => throw (.noFileName target)
  | some temporary => do
    match ← (Machine.writeText temporary text : m _) with
    | .error (step, fault) =>
      (Machine.remove temporary : m Unit)
      throw (.file (.ofStep step) temporary fault)
    | .ok () =>
      match ← (Machine.move temporary target : m _) with
      | .error fault =>
        (Machine.remove temporary : m Unit)
        throw (.file .replace target fault)
      | .ok () => pure ()

end Safelist.Manifest
