import Safelist.Files.Path
import Safelist.Json.Layout
import Safelist.Json.Shape

/-!
# Client settings

The settings of a client say which files hold its operations and which
directives are meant for the client. They are read from JSON, where every field
may be left out.
-/

namespace Safelist.Client

/-- The settings of a client. -/
structure Settings where
  /-- The name of the client. -/
  name : String := ""
  /-- The files and directories to search for operations. -/
  includes : List String := ["src"]
  /-- The paths to leave out of the search. -/
  excludes : List String := []
  /-- Whether the types of objects are asked for. -/
  addTypename : Bool := true
  /-- The directives that are stripped. -/
  clientOnlyDirectives : List String := ["connection", "type"]
  /-- The directives on fields that the client resolves itself. -/
  clientSchemaDirectives : List String := ["client", "rest"]
deriving DecidableEq

namespace Settings

/-- Settings with their paths taken from a directory. -/
def resolve (base : String) (s : Settings) : Settings :=
  { s with
    includes := s.includes.map (Files.Path.join base)
    excludes := s.excludes.map (Files.Path.join base) }

/-- Settings as a JSON object. -/
def toJson (s : Settings) : Json :=
  let texts (ts : List String) : Json := .list (ts.map Json.text)
  .object [("name", .text s.name), ("includes", texts s.includes),
    ("excludes", texts s.excludes), ("addTypename", .boolean s.addTypename),
    ("clientOnlyDirectives", texts s.clientOnlyDirectives),
    ("clientSchemaDirectives", texts s.clientSchemaDirectives)]

/-- Settings of which some fields have been read. -/
structure Draft where
  /-- The name, if it has been read. -/
  name : Option String := none
  /-- The paths to search, if they have been read. -/
  includes : Option (List String) := none
  /-- The paths to leave out, if they have been read. -/
  excludes : Option (List String) := none
  /-- Whether types are asked for, if it has been read. -/
  addTypename : Option Bool := none
  /-- The directives to strip, if they have been read. -/
  clientOnlyDirectives : Option (List String) := none
  /-- The directives on client-side fields, if they have been read. -/
  clientSchemaDirectives : Option (List String) := none

/-- Settings with the values that have been read, and the usual ones for the others. -/
def Draft.finish (d : Draft) : Settings :=
  let usual : Settings := {}
  { name := d.name.getD usual.name
    includes := d.includes.getD usual.includes
    excludes := d.excludes.getD usual.excludes
    addTypename := d.addTypename.getD usual.addTypename
    clientOnlyDirectives := d.clientOnlyDirectives.getD usual.clientOnlyDirectives
    clientSchemaDirectives := d.clientSchemaDirectives.getD usual.clientSchemaDirectives }

/-- The fields of settings. -/
def members : List (Json.Scan.Member Draft) :=
  let texts := Json.Scan.list Json.Scan.string
  [.of "name" Draft.name (fun d t => { d with name := some t }) Json.Scan.string,
    .of "includes" Draft.includes (fun d ts => { d with includes := some ts }) texts,
    .of "excludes" Draft.excludes (fun d ts => { d with excludes := some ts }) texts,
    .of "addTypename" Draft.addTypename (fun d b => { d with addTypename := some b })
      Json.Scan.bool,
    .of "clientOnlyDirectives" Draft.clientOnlyDirectives
      (fun d ts => { d with clientOnlyDirectives := some ts }) texts,
    .of "clientSchemaDirectives" Draft.clientSchemaDirectives
      (fun d ts => { d with clientSchemaDirectives := some ts }) texts]

/-- Read settings. -/
def scan : Json.Scan Settings := Draft.finish <$> Json.Scan.record members {}

end Settings

end Safelist.Client
