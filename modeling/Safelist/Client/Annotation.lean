import Safelist.Document.Edit

/-!
# Client annotations

Some directives are instructions to the client. They are either stripped, and
what they stand on stays, or they mark fields that the client resolves itself.
-/

namespace Safelist.Client

/-- Whether one of these directives has one of these names. -/
def isAnnotated (names : List String) (ds : List Directive) : Bool :=
  ds.any fun d => names.contains d.name

/-- The edit that takes away the directives of some names. -/
def stripping (names : List String) : Edit where
  directives := List.filter fun d => !names.contains d.name

/-- A document without the directives of some names. -/
def stripDirectives (names : List String) (d : Document) : Document := (stripping names).apply d

end Safelist.Client
