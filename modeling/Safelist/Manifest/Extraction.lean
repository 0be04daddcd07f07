import Safelist.Manifest.Recipe
import Safelist.Manifest.Replacement

/-!
# Extraction

An extraction makes the manifest of a set of operations and writes it to a
file. All records are made before anything is written. On request its stages
are reported with the time they took, and every record with its signature.
-/

namespace Safelist.Manifest

variable {m : Type → Type} [Monad m] [Machine m]

/-- Do the work of a stage, reported at its beginning and its completion if that is asked
for. A stage that fails is not completed. -/
def stage {α : Type} (timings : Bool) (begins completes : Log.Event)
    (work : ExceptT Failure m α) : ExceptT Failure m α := do
  if timings then (Machine.report begins [] : m Unit)
  let begun ← (Machine.clock : m Nat)
  let result ← work
  if timings then
    let now ← (Machine.clock : m Nat)
    (Machine.report completes [("elapsed_ms", toString (now - begun))] : m Unit)
  pure result

/-- Make the manifest of a set of operations. -/
def build (recipe : Recipe) (timings : Bool) (set : OperationSet) : ExceptT Failure m Manifest :=
  stage timings .extractBegin .extractComplete
    (let account := recipe.manifest set
     if timings then Machine.tell account else ExceptT.mk (pure account.outcome))

/-- Make the manifest of a set of operations and write it to a file. -/
def extract (timings : Bool) (set : OperationSet) (output : String) :
    ExceptT Failure m Manifest := do
  let manifest ← build .standard timings set
  stage timings .writeBegin .writeComplete (replaceFile output manifest.write)
  pure manifest

/-- Read the manifest that a file holds. -/
def load (path : String) : ExceptT Failure m Manifest := do
  match ← (Machine.readText path : m _) with
  | .error fault => throw (.file .read path fault)
  | .ok text =>
    match read text with
    | .error fault => throw (.unreadable fault)
    | .ok manifest => pure manifest

end Safelist.Manifest
