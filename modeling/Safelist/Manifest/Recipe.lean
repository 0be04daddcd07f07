import Safelist.Document.OperationSet
import Safelist.Log.Account
import Safelist.Log.Event
import Safelist.Manifest.Basic
import Safelist.Manifest.Failure
import Safelist.Signature.Digest
import Safelist.Signature.Engine

/-!
# Recipes for records

A recipe says how an operation becomes a record: what is checked, what is taken
out, how the rest is written and what its signatures are. The standard recipe
registers the digest of the canonical text of the redacted document; the engine
signature is that of the document itself.
-/

namespace Safelist.Manifest

/-- How an operation becomes a record. -/
structure Recipe where
  /-- Whether the document may be registered. -/
  check : Document → Except DocumentError Unit
  /-- What becomes of the document before it is written. -/
  redact : Document → Document
  /-- How the redacted document is written. -/
  canonicalText : Document → String
  /-- The signature of the text. -/
  signature : String → String
  /-- The older identifier, made from the document as it came. -/
  engineSignature : Document → String

namespace Recipe

/-- The recipe that manifests are made by. -/
def standard : Recipe where
  check := Document.check
  redact := Signature.redact
  canonicalText := Signature.canonicalText
  signature := Signature.Digest.ofText
  engineSignature := Signature.engineSignature Signature.placeholderName

/-- The record of an operation. -/
def record (r : Recipe) (name : String) (d : Document) : Except Failure Record :=
  match r.check d with
  | .error cause => .error (.invalidOperation name cause)
  | .ok () =>
    let text := r.canonicalText (r.redact d)
    .ok ⟨r.signature text, text, r.engineSignature d⟩

/-- The records of operations in order, reported one by one, up to the first that can not
be registered. -/
def records (r : Recipe) : List (String × Document) → Log.Account Failure (List Record)
  | [] => pure []
  | (name, d) :: rest => do
    let first ← .ofExcept (r.record name d)
    .note (Log.Event.operationProcessed.entry
      [("operation", name), ("signature", first.signature)])
    pure (first :: (← r.records rest))

/-- The manifest of a set of operations. -/
def manifest (r : Recipe) (set : OperationSet) : Log.Account Failure Manifest := do
  pure (.ofRecords (← r.records set.entries))

end Recipe

end Safelist.Manifest
