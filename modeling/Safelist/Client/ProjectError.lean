import Safelist.Files.Fault
import Safelist.Lexical.Problem

/-!
# Errors of a client's project

Why the operations of a client could not be collected.
-/

namespace Safelist.Client

/-- Why the operations of a client could not be collected. -/
inductive ProjectError where
  /-- A path to search leads to neither a file nor a directory. -/
  | includeNotFound (path : String)
  /-- A file or a directory could not be read. -/
  | unreadable (path : String) (cause : Files.Fault)
  /-- A file does not hold a document. -/
  | unparsable (path : String) (cause : Lexical.ReadError)
  /-- Two operations have one name. -/
  | duplicateOperation (name first second : String)
  /-- Two fragments have one name. -/
  | duplicateFragment (name first second : String)
  /-- An operation uses a fragment that no file defines. -/
  | unknownFragment (operation fragment : String)
  /-- A set of operations has an operation of this name already. -/
  | duplicateInSet (name : String)
deriving DecidableEq

namespace ProjectError

/-- The wording of an error. -/
def message : ProjectError → String
  | .includeNotFound path => "Include path not found: " ++ path
  | .unreadable path cause => "Failed to read " ++ path ++ ": " ++ cause.message
  | .unparsable path cause => "Failed to parse " ++ path ++ ": " ++ cause.message
  | .duplicateOperation name first second =>
    "Operation '" ++ name ++ "' is defined in both " ++ first ++ " and " ++ second
  | .duplicateFragment name first second =>
    "Fragment '" ++ name ++ "' is defined in both " ++ first ++ " and " ++ second
  | .unknownFragment operation fragment =>
    "Operation '" ++ operation ++ "' references unknown fragment '" ++ fragment ++ "'"
  | .duplicateInSet name => "Operation set already contains '" ++ name ++ "'"

/-- The path that an error points at. -/
def path? : ProjectError → Option String
  | .includeNotFound path => some path
  | .unreadable path _ => some path
  | .unparsable path _ => some path
  | .duplicateOperation _ _ second => some second
  | .duplicateFragment _ _ second => some second
  | .unknownFragment _ _ => none
  | .duplicateInSet _ => none

/-- The wordings of the causes of an error. -/
def causes : ProjectError → List String
  | .unreadable _ cause => [cause.message]
  | .unparsable _ cause => [cause.message]
  | _ => []

end ProjectError

end Safelist.Client
