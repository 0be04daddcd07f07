import Safelist.Log.Entry

/-!
# Events of a run

The events that a run reports by itself. Events about single items are detail;
all others are normal progress.
-/

namespace Safelist.Log

/-- What a run reports. -/
inductive Event where
  /-- A configuration file was loaded. -/
  | configLoaded
  /-- The search for source files begins. -/
  | projectLoadBegin
  /-- A source file was read as a document. -/
  | sourceParsed
  /-- An operation without a name was passed over. -/
  | anonymousOperationSkipped
  /-- An operation that only the client resolves was passed over. -/
  | clientOnlyOperationSkipped
  /-- All source files were read. -/
  | projectLoadComplete
  /-- The making of records begins. -/
  | extractBegin
  /-- A record was made. -/
  | operationProcessed
  /-- All records were made. -/
  | extractComplete
  /-- The writing of the manifest begins. -/
  | writeBegin
  /-- The manifest was written. -/
  | writeComplete
deriving DecidableEq

namespace Event

/-- The name of an event in the log. -/
def name : Event → String
  | .configLoaded => "CONFIG_LOADED"
  | .projectLoadBegin => "PROJECT_LOAD_BEGIN"
  | .sourceParsed => "SOURCE_PARSED"
  | .anonymousOperationSkipped => "ANONYMOUS_OPERATION_SKIPPED"
  | .clientOnlyOperationSkipped => "CLIENT_ONLY_OPERATION_SKIPPED"
  | .projectLoadComplete => "PROJECT_LOAD_COMPLETE"
  | .extractBegin => "EXTRACT_OPERATIONS_BEGIN"
  | .operationProcessed => "OPERATION_PROCESSED"
  | .extractComplete => "EXTRACT_OPERATIONS_COMPLETE"
  | .writeBegin => "WRITE_MANIFEST_BEGIN"
  | .writeComplete => "WRITE_MANIFEST_COMPLETE"

/-- All events, in the order of a run. -/
def all : List Event :=
  [.configLoaded, .projectLoadBegin, .sourceParsed, .anonymousOperationSkipped,
    .clientOnlyOperationSkipped, .projectLoadComplete, .extractBegin, .operationProcessed,
    .extractComplete, .writeBegin, .writeComplete]

/-- The event of a name. -/
def ofName? (name : String) : Option Event := all.find? (·.name == name)

/-- Whether an event is about a single item. -/
def isDetail : Event → Bool
  | .sourceParsed => true
  | .operationProcessed => true
  | _ => false

/-- The severity with which an event is reported. -/
def severity (e : Event) : Severity := if e.isDetail then .trace else .info

/-- The entry that reports an event. -/
def entry (e : Event) (fields : List (String × String)) : Entry := ⟨e.severity, e.name, fields⟩

/-- The entry that reports an event as a warning. -/
def warning (e : Event) (fields : List (String × String)) : Entry := ⟨.warn, e.name, fields⟩

/-- Every event is found by its name. -/
theorem ofName?_name (e : Event) : ofName? e.name = some e := by cases e <;> decide

end Event

end Safelist.Log
