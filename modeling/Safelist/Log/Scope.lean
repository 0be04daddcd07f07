import Safelist.Log.Entry

/-!
# Scopes

A scope is a piece of work that is reported when it begins and when it ends. It
ends complete or failed, or is dropped without being ended. The named values
given at the beginning are repeated when it is complete or failed; the report
on a dropped scope has only its reason.
-/

namespace Safelist.Log

/-- A piece of work that has begun. -/
structure Scope where
  /-- What the events of the scope are named after. -/
  name : String
  /-- Names and values that go with the scope. -/
  fields : List (String × String)
  /-- The clock when it began, in milliseconds. -/
  begun : Nat
deriving DecidableEq

/-- How a scope ends. -/
inductive Ending where
  /-- The work is done; there may be more values to report. -/
  | complete (extra : List (String × String))
  /-- The work failed for a reason. -/
  | fail (reason : String)
  /-- Nobody ended it. -/
  | dropped
deriving DecidableEq

namespace Scope

/-- The entry with which a scope begins. -/
def opening (s : Scope) : Entry := ⟨.info, s.name ++ "_BEGIN", s.fields⟩

/-- The entry with which a scope ends, at a reading of the clock. -/
def closing (s : Scope) (now : Nat) : Ending → Entry
  | .complete extra =>
    ⟨.info, s.name ++ "_COMPLETE",
      s.fields ++ extra ++ [("elapsed_ms", toString (now - s.begun))]⟩
  | .fail reason => ⟨.error, s.name ++ "_FAILED", s.fields ++ [("reason", reason)]⟩
  | .dropped =>
    ⟨.warn, s.name ++ "_INCOMPLETE", [("reason", "scope dropped without completion")]⟩

end Scope

end Safelist.Log
