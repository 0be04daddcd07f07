import Safelist.Document.Spreads

/-!
# Documents that can be registered

A registrable document holds one operation and the fragments it needs: names of
fragments do not repeat, no selection set is empty, and every fragment that the
operation uses, directly or not, is there. The first rule that is broken is
reported, in a fixed order.
-/

namespace Safelist

/-- Why a document cannot be registered. -/
inductive DocumentError where
  /-- There is no operation. -/
  | noOperation
  /-- There are several operations, this many. -/
  | multipleOperations (count : Nat)
  /-- Two fragments have this name. -/
  | duplicateFragment (name : String)
  /-- A fragment of this name is used but not there. -/
  | unknownFragment (name : String)
  /-- A selection set is empty: the definition it is in, and the way to it. -/
  | emptySelectionSet (owner : String) (path : List String)
deriving DecidableEq

/-- The wording of an error. -/
def DocumentError.message : DocumentError → String
  | .noOperation => "Document contains no operation definition"
  | .multipleOperations count =>
    "Document contains " ++ toString count ++ " operation definitions, expected exactly one"
  | .duplicateFragment name => "Fragment defined more than once: " ++ name
  | .unknownFragment name => "Unknown fragment: " ++ name
  | .emptySelectionSet owner path =>
    "Empty selection set in " ++ " > ".intercalate (owner :: path)

/-- How an inline fragment is named on the way to an empty selection set. -/
def InlineHead.label (head : InlineHead) : String :=
  "... " ++ head.typeCondition.getD "inline fragment"

mutual

/-- The way to the first empty selection set inside a selection, if there is one. -/
def Selection.emptyPath? : Selection → Option (List String)
  | .leaf _ => none
  | .nested f set =>
    (if set.isEmpty then some [] else Selection.firstEmptyPath? set).map (f.responseKey :: ·)
  | .spread _ => none
  | .inline head set =>
    (if set.isEmpty then some [] else Selection.firstEmptyPath? set).map (head.label :: ·)

/-- The way to the first empty selection set inside some selections, if there is one. -/
def Selection.firstEmptyPath? : List Selection → Option (List String)
  | [] => none
  | s :: rest => s.emptyPath?.or (Selection.firstEmptyPath? rest)

end

/-- The way to the first empty selection set, which may be this one itself. -/
def Selection.setEmptyPath? (set : List Selection) : Option (List String) :=
  if set.isEmpty then some [] else Selection.firstEmptyPath? set

/-- How an operation is named in errors. -/
def Operation.label (op : Operation) : String :=
  match op.name with
  | some name => op.kind.keyword ++ " " ++ name
  | none => "anonymous " ++ op.kind.keyword

/-- How a fragment is named in errors. -/
def Fragment.label (f : Fragment) : String := "fragment " ++ f.name

/-- No selection set of a definition may be empty. -/
def checkSelections (owner : String) (set : List Selection) : Except DocumentError Unit :=
  match Selection.setEmptyPath? set with
  | some path => .error (.emptySelectionSet owner path)
  | none => .ok ()

/-- Fragments may not repeat a name, among these names and each other, and none of their
selection sets may be empty. A repeated name is reported before the set. -/
def checkFragments (seen : List String) : List Fragment → Except DocumentError Unit
  | [] => .ok ()
  | f :: rest => do
    if seen.contains f.name then throw (.duplicateFragment f.name)
    checkSelections f.label f.selections
    checkFragments (f.name :: seen) rest

namespace Document

/-- The only operation of a document. -/
def soleOperation (d : Document) : Except DocumentError Operation :=
  match d.operations with
  | [] => .error .noOperation
  | [op] => .ok op
  | many => .error (.multipleOperations many.length)

/-- Check that a document can be registered. -/
def check (d : Document) : Except DocumentError Unit := do
  let op ← d.soleOperation
  checkFragments [] d.fragments
  checkSelections op.label op.selections
  match (reach d.fragments op.selections).missing with
  | [] => pure ()
  | name :: _ => throw (.unknownFragment name)

end Document

end Safelist
