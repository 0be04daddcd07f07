import Safelist.Client.Settings
import Safelist.Command.Arguments
import Safelist.Machine.Basic
import Safelist.Text.Blank

/-!
# Configuration

The settings of a client come from a file, and the command line goes before it.
Paths in the file are taken from the directory of the file, those of the command
line from the working directory.
-/

namespace Safelist.Command

/-- What a configuration file holds. -/
structure Configuration where
  /-- The settings of the client. -/
  client : Client.Settings := {}
deriving DecidableEq

/-- Why there is no usable configuration. -/
inductive ConfigurationError where
  /-- The file could not be read. -/
  | unreadable (path : String) (cause : Files.Fault)
  /-- The file does not hold a configuration. -/
  | malformed (cause : Json.Fault)
  /-- The client has no name. -/
  | noClientName
  /-- There is nothing to search. -/
  | noIncludes
deriving DecidableEq

/-- The wording of an error. -/
def ConfigurationError.message : ConfigurationError → String
  | .unreadable path cause => "Failed to read config " ++ path ++ ": " ++ cause.message
  | .malformed cause => "Invalid config JSON: " ++ cause.message
  | .noClientName =>
    "Client name is required: set client.name in the config or pass --client-name"
  | .noIncludes => "client.includes must not be empty"

namespace Configuration

/-- The file that is looked for when none is given. -/
def usualFile : String := "opmanifest.json"

/-- A configuration as a JSON object. -/
def toJson (c : Configuration) : Json := .object [("client", c.client.toJson)]

/-- Read a configuration. -/
def scan : Json.Scan Configuration := do
  let client ← Json.Scan.record [.of "client" id (fun _ s => some s) Client.Settings.scan] none
  pure ⟨client.getD {}⟩

/-- The configuration that a JSON document holds. -/
def read (text : String) : Except Json.Fault Configuration := Json.Scan.whole scan text

/-- A configuration with its paths taken from a directory. -/
def resolve (base : String) (c : Configuration) : Configuration :=
  { c with client := c.client.resolve base }

/-- A configuration with what the command line says in its place. -/
def override (a : Arguments) (c : Configuration) : Configuration :=
  { c with
    client :=
      { c.client with
        name := a.clientName.getD c.client.name
        includes := if a.includes.isEmpty then c.client.includes else a.includes
        excludes := if a.excludes.isEmpty then c.client.excludes else a.excludes
        addTypename := c.client.addTypename && !a.noAddTypename } }

/-- A client needs a name with more than white space, and something to search. -/
def check (c : Configuration) : Except ConfigurationError Unit :=
  if Text.isBlank c.client.name then .error .noClientName
  else if c.client.includes.isEmpty then .error .noIncludes
  else .ok ()

variable {m : Type → Type} [Monad m] [Machine m]

/-- Load a configuration file. -/
def load (path : String) : ExceptT ConfigurationError m Configuration := do
  match ← (Machine.readText path : m _) with
  | .error fault => throw (.unreadable path fault)
  | .ok text =>
    match read text with
    | .error fault => throw (.malformed fault)
    | .ok c =>
      (Machine.report .configLoaded [("path", path)] : m Unit)
      match Files.Path.parent? path with
      | some base => pure (c.resolve base)
      | none => pure c

/-- The configuration file that the arguments name, or the usual one if it is there. -/
def loadFor (a : Arguments) : ExceptT ConfigurationError m Configuration := do
  match a.config with
  | some path => load path
  | none =>
    if (← (Machine.kindOf usualFile : m _)) = some .file then load usualFile else pure {}

/-- The configuration of an extraction. -/
def forExtract (a : Arguments) : ExceptT ConfigurationError m Configuration := do
  let c := (← loadFor a).override a
  match c.check with
  | .error e => throw e
  | .ok () => pure c

end Configuration

end Safelist.Command
