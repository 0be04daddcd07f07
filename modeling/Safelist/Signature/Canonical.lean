import Safelist.Document.Edit
import Safelist.Document.Printer

/-!
# Canonical order

In canonical order the entries of every list stand by their keys: fragments
before operations and anonymous operations last; fields before the uses of
fragments before inline fragments; and otherwise by name, in the order of code
points. Entries with equal keys keep the order they had.
-/

namespace Safelist.Signature

/-- What an entry is ordered by: first its rank, then its name. -/
structure Key where
  /-- The group the entry belongs to. -/
  rank : Nat
  /-- The name inside its group. -/
  name : String
deriving DecidableEq

/-- A key does not come after another. -/
def Key.le (a b : Key) : Bool := a.rank < b.rank || (a.rank = b.rank && decide (a.name ≤ b.name))

/-- The key of entries that are ordered by name alone. -/
def Key.ofName (name : String) : Key := ⟨0, name⟩

/-- The key of a definition. -/
def definitionKey : Definition → Key
  | .fragment f => ⟨0, f.name⟩
  | .operation op =>
    match op.name with
    | some name => ⟨1, name⟩
    | none => ⟨2, ""⟩

/-- The key of a selection. -/
def selectionKey : Selection → Key
  | .leaf f => ⟨0, f.name⟩
  | .nested f _ => ⟨0, f.name⟩
  | .spread s => ⟨1, s.name⟩
  | .inline head _ => ⟨2, head.typeCondition.getD ""⟩

/-- Entries by their keys, those with equal keys in the order they had. -/
def sortByKey {α : Type} (key : α → Key) (entries : List α) : List α :=
  entries.mergeSort fun a b => (key a).le (key b)

/-- An input object with its members by name; any other value as it is. -/
def sortMembers : Value → Value
  | .object members => .object (sortByKey (fun m => Key.ofName m.1) members)
  | v => v

/-- The edit that brings every list into canonical order. -/
def canonicalOrder : Edit where
  value := sortMembers
  arguments := sortByKey fun a => Key.ofName a.name
  directives := sortByKey fun d => Key.ofName d.name
  variableDefinitions := sortByKey fun v => Key.ofName v.name
  selections := sortByKey selectionKey
  definitions := sortByKey definitionKey

/-- A document in canonical order. -/
def sort (d : Document) : Document := canonicalOrder.apply d

/-- A document in canonical order and reduced form. -/
def canonicalText (d : Document) : String := (sort d).print

end Safelist.Signature
