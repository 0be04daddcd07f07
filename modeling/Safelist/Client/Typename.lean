import Safelist.Document.Edit

/-!
# Type names

A client cache asks for the type of every object it receives. The field that
answers this is added in front of the selections of every field and of every
fragment with a name, unless it is there already under its own name. The root
of an operation and inline fragments are left as they are.
-/

namespace Safelist.Client

/-- The name of the field that answers the type of an object. -/
def typename : String := "__typename"

/-- Whether a selection is that field under its own name. -/
def isTypename : Selection → Bool
  | .leaf f => f.name == typename && f.aliasName.isNone
  | .nested f _ => f.name == typename && f.aliasName.isNone
  | _ => false

/-- A selection set that asks for the type. -/
def withTypename (set : List Selection) : List Selection :=
  if set.any isTypename then set else .leaf (.plain typename) :: set

/-- The edit that adds type names where the cache does. -/
def askingTypes : Edit where
  fieldSelections := withTypename
  fragmentSelections := withTypename

/-- A document that asks for types where the cache does. -/
def addTypename (d : Document) : Document := askingTypes.apply d

/-- The result asks for the type. -/
theorem any_isTypename_withTypename (set : List Selection) :
    (withTypename set).any isTypename = true := by
  unfold withTypename
  split
  · assumption
  · simp [isTypename, Field.plain]

/-- Asking twice adds nothing. -/
@[simp] theorem withTypename_withTypename (set : List Selection) :
    withTypename (withTypename set) = withTypename set := by
  have h := any_isTypename_withTypename set
  generalize withTypename set = t at h ⊢
  rw [withTypename, if_pos h]

end Safelist.Client
