import Safelist.Json.Layout
import Safelist.Json.Shape

/-!
# Manifests

A manifest is the list of the operations that a server is to accept, with the
version of its form. It is written as JSON and read back.
-/

namespace Safelist

/-- One operation of a manifest. -/
structure Record where
  /-- The digest of the document. -/
  signature : String
  /-- The canonical text of the operation with its fragments. -/
  document : String
  /-- The older identifier of the operation; two operations may share it. -/
  engineSignature : String
deriving DecidableEq

/-- The operations that a server is to accept. -/
structure Manifest where
  /-- The version of the form. -/
  version : UInt32
  /-- The operations in order. -/
  records : List Record
deriving DecidableEq

namespace Record

/-- A record as a JSON object. -/
def toJson (r : Record) : Json :=
  .object [("signature", .text r.signature), ("document", .text r.document),
    ("metadata", .object [("engineSignature", .text r.engineSignature)])]

/-- A record of which some fields have been read. -/
structure Draft where
  /-- The signature, if it has been read. -/
  signature : Option String := none
  /-- The document, if it has been read. -/
  document : Option String := none
  /-- The engine signature, if it has been read. -/
  metadata : Option String := none

/-- The engine signature in its own object. -/
def metadata : Json.Scan String := do
  let draft ← Json.Scan.record
    [.of "engineSignature" id (fun _ text => some text) Json.Scan.string] none
  Json.Scan.required draft

/-- The fields of a record. -/
def members : List (Json.Scan.Member Draft) :=
  [.of "signature" Draft.signature (fun d text => { d with signature := some text })
      Json.Scan.string,
    .of "document" Draft.document (fun d text => { d with document := some text })
      Json.Scan.string,
    .of "metadata" Draft.metadata (fun d text => { d with metadata := some text }) metadata]

/-- Read a record. No field may be left out. -/
def scan : Json.Scan Record := do
  let draft ← Json.Scan.record members {}
  pure ⟨← Json.Scan.required draft.signature, ← Json.Scan.required draft.document,
    ← Json.Scan.required draft.metadata⟩

end Record

namespace Manifest

/-- The version that is written. -/
def currentVersion : UInt32 := 1

/-- A manifest of the current version. -/
def ofRecords (records : List Record) : Manifest := ⟨currentVersion, records⟩

/-- The number of records. -/
def size (m : Manifest) : Nat := m.records.length

/-- Whether there are no records. -/
def isEmpty (m : Manifest) : Bool := m.records.isEmpty

/-- A manifest as a JSON object. -/
def toJson (m : Manifest) : Json :=
  .object [("version", .number m.version.toNat),
    ("operations", .list (m.records.map Record.toJson))]

/-- A manifest as a JSON document. -/
def write (m : Manifest) : String := m.toJson.write

/-- A manifest of which some fields have been read. -/
structure Draft where
  /-- The version, if it has been read. -/
  version : Option UInt32 := none
  /-- The records, if they have been read. -/
  operations : Option (List Record) := none

/-- The fields of a manifest. -/
def members : List (Json.Scan.Member Draft) :=
  [.of "version" Draft.version (fun d n => { d with version := some n }) Json.Scan.word,
    .of "operations" Draft.operations (fun d rs => { d with operations := some rs })
      (Json.Scan.list Record.scan)]

/-- Read a manifest. No field may be left out, and any version is accepted. -/
def scan : Json.Scan Manifest := do
  let draft ← Json.Scan.record members {}
  pure ⟨← Json.Scan.required draft.version, ← Json.Scan.required draft.operations⟩

/-- The manifest that a JSON document holds. -/
def read (text : String) : Except Json.Fault Manifest := Json.Scan.whole scan text

end Manifest

end Safelist
