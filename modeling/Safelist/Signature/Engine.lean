import Safelist.Document.Spreads
import Safelist.Signature.Canonical
import Safelist.Signature.Redaction

/-!
# Engine signatures

An engine signature is an older identifier of an operation: its text with every
literal hidden and every alias removed, in canonical order, after definitions
that the operation does not use have been dropped. The operation is chosen by
its name; where no operation has the name, nothing is dropped.
-/

namespace Safelist.Signature

/-- Whether an operation has a name. -/
def isNamed (name : String) (op : Operation) : Bool := op.name == some name

/-- A document without the operations of other names and without the fragments that the
first operation of this name does not use. Without such an operation nothing is dropped. -/
def dropUnused (name : String) (d : Document) : Document :=
  match d.operations.find? (isNamed name) with
  | none => d
  | some op =>
    let used := (reach d.fragments op.selections).names
    ⟨d.definitions.filter fun
      | .operation op => isNamed name op
      | .fragment f => used.contains f.name⟩

/-- A document without aliases. -/
def removeAliases (d : Document) : Document :=
  Edit.apply { field := fun f => { f with aliasName := none } } d

/-- The engine signature of the operation of this name in a document. -/
def engineSignature (name : String) (d : Document) : String :=
  canonicalText (removeAliases (hideLiterals (dropUnused name d)))

/-- The name under which records ask for engine signatures. Records do not know the names
of operations there, so unless an operation has this name the whole document is signed. -/
def placeholderName : String := "TODO"

end Safelist.Signature
