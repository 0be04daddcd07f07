import Safelist.Document.Registrable
import Safelist.Files.Fault
import Safelist.Json.Scan

/-!
# Failures of extraction

Why a manifest could not be made, written or read. Each failure has a code, a
message and a display, and may have a cause of its own.
-/

namespace Safelist.Manifest

/-- What was to be done with a file. -/
inductive Action where
  /-- Read it. -/
  | read
  /-- Make it, or empty the one that is there. -/
  | create
  /-- Write its content. -/
  | write
  /-- Make sure that its content stays. -/
  | sync
  /-- Put it in the place of another. -/
  | replace
deriving DecidableEq

/-- The word for an action. -/
def Action.word : Action → String
  | .read => "read"
  | .create => "create"
  | .write => "write"
  | .sync => "fsync"
  | .replace => "replace"

/-- Why an extraction failed. -/
inductive Failure where
  /-- The document of an operation can not be registered. -/
  | invalidOperation (name : String) (cause : DocumentError)
  /-- A file could not be used. -/
  | file (action : Action) (path : String) (cause : Files.Fault)
  /-- A path to write to does not name a file. -/
  | noFileName (path : String)
  /-- A text does not hold a manifest. -/
  | unreadable (cause : Json.Fault)
deriving DecidableEq

namespace Failure

/-- The code of a failure. -/
def code : Failure → String
  | .invalidOperation _ _ => "OPM_EXTRACT_INPUT"
  | .file _ _ _ => "OPM_EXTRACT_IO"
  | .noFileName _ => "OPM_EXTRACT_IO"
  | .unreadable _ => "OPM_EXTRACT_SERIALIZE"

/-- What went wrong, without the cause of a fault. -/
def message : Failure → String
  | .invalidOperation name cause => "Invalid operation '" ++ name ++ "': " ++ cause.message
  | .file action path _ => "Failed to " ++ action.word ++ " " ++ path
  | .noFileName path => "Output path does not name a file: " ++ path
  | .unreadable cause => "Failed to serialize manifest: " ++ cause.message

/-- The operation that a failure is about. -/
def operation? : Failure → Option String
  | .invalidOperation name _ => some name
  | _ => none

/-- The fault behind a failure. -/
def fault? : Failure → Option Files.Fault
  | .file _ _ cause => some cause
  | _ => none

/-- What went wrong, with the fault behind it. -/
def details (f : Failure) : String :=
  match f.fault? with
  | some fault => f.message ++ " (" ++ fault.message ++ ")"
  | none => f.message

/-- The wording of a failure with its code. -/
def display (f : Failure) : String := "[ERROR] " ++ f.code ++ ": " ++ f.details

/-- The wordings of the causes of a failure. -/
def causes : Failure → List String
  | .invalidOperation _ cause => [cause.message]
  | .file _ _ cause => [cause.message]
  | .noFileName _ => []
  | .unreadable cause => [cause.message]

end Failure

end Safelist.Manifest
