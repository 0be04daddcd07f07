import Safelist.Client.Bundle
import Safelist.Client.Discovery
import Safelist.Command.Failure
import Safelist.Manifest.Extraction

/-!
# Runs

A run reads its configuration, collects the operations of the client, makes
their manifest and writes it. It is reported as a scope. Whatever fails ends the
run before anything is written.
-/

namespace Safelist.Command

variable {m : Type → Type} [Monad m] [Machine m]

/-- Work whose errors are failures of a run. -/
def failingAs {ε α : Type} (f : ε → Failure) (work : ExceptT ε m α) : ExceptT Failure m α :=
  ExceptT.mk do return (← work.run).mapError f

/-- Make and write the manifest of a client. -/
def extractClient (s : Client.Settings) (a : Arguments) : ExceptT Failure m Manifest := do
  let p ← failingAs .project (Client.Project.load s)
  let set ← failingAs .project (Machine.tell (p.operationSet s))
  failingAs .extraction (Manifest.extract a.timings set a.output)

/-- What is told about a manifest that has been written. -/
def summary (s : Client.Settings) (a : Arguments) (manifest : Manifest) : String :=
  "Successfully wrote " ++ toString manifest.size ++ " operations from the " ++ s.name ++
    " client to " ++ a.output

/-- The name of the scope of a run. -/
def scopeName : String := "CLIENT_EXTRACT"

/-- Do what the arguments ask for. The result is the summary. -/
def extract (a : Arguments) : ExceptT Failure m String := do
  if a.timings then (Machine.setThreshold .trace : m Unit)
  let s := (← failingAs .configuration (Configuration.forExtract a)).client
  let scope ← (Machine.openScope scopeName [("client", s.name), ("output", a.output)] : m _)
  match ← ExceptT.lift (extractClient s a).run with
  | .ok manifest =>
    (Machine.closeScope scope (.complete [("operations", toString manifest.size)]) : m Unit)
    pure (summary s a manifest)
  | .error failure =>
    (Machine.closeScope scope (.fail failure.display) : m Unit)
    throw failure

/-- Do what the arguments ask for and print the summary. -/
def run (a : Arguments) : ExceptT Failure m Unit := do
  let text ← extract a
  (Machine.print (text ++ "\n") : m Unit)

end Safelist.Command
