import Safelist.Client.Erasure
import Safelist.Client.Project
import Safelist.Client.Settings
import Safelist.Client.Typename
import Safelist.Document.OperationSet

/-!
# Bundles

A bundle is an operation together with the fragments it uses, as the server is
to see them: with the types of objects asked for, without what the client
resolves itself and without directives that only the client knows. An operation
of which nothing is left is passed over with a warning.
-/

namespace Safelist.Client

/-- A set with one more operation. -/
def insertOperation (set : OperationSet) (name : String) (d : Document) :
    Except ProjectError OperationSet :=
  match set.insert? name d with
  | some set => .ok set
  | none => .error (.duplicateInSet name)

/-- A document as the server is to see it. -/
def serverSide (s : Settings) (d : Document) : Document :=
  let d := if s.addTypename then addTypename d else d
  stripDirectives s.clientOnlyDirectives (eraseClientFields s.clientSchemaDirectives d)

/-- Whether nothing is left in the first operation of a document. -/
def isClientOnly (d : Document) : Bool := d.operations.head?.any (·.selections.isEmpty)

namespace Project

/-- The fragments of a project without their files. -/
def fragmentList (p : Project) : List Fragment := p.fragments.map SourcedFragment.fragment

/-- An operation with the fragments of the project that it uses, in the order of the
project, unless it uses one that is not there. -/
def bundle (p : Project) (o : SourcedOperation) : Except ProjectError Document :=
  let used := reach p.fragmentList o.operation.selections
  match used.missing with
  | name :: _ => .error (.unknownFragment o.name name)
  | [] =>
    .ok ⟨.operation o.operation ::
      (p.fragmentList.filter fun f => used.names.contains f.name).map Definition.fragment⟩

/-- The bundles of some operations as the server is to see them, added to a set. -/
def bundles (p : Project) (s : Settings) (set : OperationSet) :
    List SourcedOperation → Log.Account ProjectError OperationSet
  | [] => pure set
  | o :: rest => do
    let d := serverSide s (← .ofExcept (p.bundle o))
    if isClientOnly d then
      .note (Log.Event.clientOnlyOperationSkipped.warning
        [("operation", o.name), ("path", o.path)])
      bundles p s set rest
    else bundles p s (← .ofExcept (insertOperation set o.name d)) rest

/-- The bundles of all operations of a project as the server is to see them. -/
def operationSet (p : Project) (s : Settings) : Log.Account ProjectError OperationSet :=
  p.bundles s .empty p.operations

end Project

end Safelist.Client
