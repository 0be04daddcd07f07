import Safelist.Document.Basic

/-!
# Edits

An edit changes documents everywhere at once. It is a record of what to do with
each kind of part once the parts inside it have been edited; a part for which
nothing is given stays as it is. Types of variables are never edited.
-/

namespace Safelist

/-- What to do with each kind of part, after the parts inside it. -/
structure Edit where
  /-- What becomes of a value. -/
  value : Value → Value := id
  /-- What becomes of the arguments of a field or a directive. -/
  arguments : List Argument → List Argument := id
  /-- What becomes of the directives on a part. -/
  directives : List Directive → List Directive := id
  /-- What becomes of the variables of an operation. -/
  variableDefinitions : List VariableDefinition → List VariableDefinition := id
  /-- What becomes of a field apart from its selection set. -/
  field : Field → Field := id
  /-- What becomes of a selection; it may be dropped. -/
  selection : Selection → Option Selection := some
  /-- What becomes of any selection set. -/
  selections : List Selection → List Selection := id
  /-- What becomes of the selection set of a field, after that. -/
  fieldSelections : List Selection → List Selection := id
  /-- What becomes of the selection set of a fragment definition, after that. -/
  fragmentSelections : List Selection → List Selection := id
  /-- What becomes of the definitions of a document. -/
  definitions : List Definition → List Definition := id

namespace Edit

/-- The edit that changes nothing. -/
def identity : Edit := {}

mutual

/-- The edit of a value. -/
def onValue (e : Edit) : Value → Value
  | .list items => e.value (.list (e.onItems items))
  | .object members => e.value (.object (e.onMembers members))
  | v => e.value v

/-- The edit of each item of a list value. -/
def onItems (e : Edit) : List Value → List Value
  | [] => []
  | v :: rest => e.onValue v :: e.onItems rest

/-- The edit of each member of an input object. -/
def onMembers (e : Edit) : List (String × Value) → List (String × Value)
  | [] => []
  | (name, v) :: rest => (name, e.onValue v) :: e.onMembers rest

end

/-- The edit of arguments. -/
def onArguments (e : Edit) (as : List Argument) : List Argument :=
  e.arguments (as.map fun a => { a with value := e.onValue a.value })

/-- The edit of directives. -/
def onDirectives (e : Edit) (ds : List Directive) : List Directive :=
  e.directives (ds.map fun d => { d with arguments := e.onArguments d.arguments })

/-- The edit of variables. -/
def onVariables (e : Edit) (vs : List VariableDefinition) : List VariableDefinition :=
  e.variableDefinitions (vs.map fun v =>
    { v with
      defaultValue := v.defaultValue.map e.onValue
      directives := e.onDirectives v.directives })

/-- The edit of a field apart from its selection set. -/
def onField (e : Edit) (f : Field) : Field :=
  e.field { f with
    arguments := e.onArguments f.arguments
    directives := e.onDirectives f.directives }

/-- The edit of a fragment's use. -/
def onSpread (e : Edit) (s : Spread) : Spread :=
  { s with directives := e.onDirectives s.directives }

/-- The edit of an inline fragment apart from its selection set. -/
def onInlineHead (e : Edit) (head : InlineHead) : InlineHead :=
  { head with directives := e.onDirectives head.directives }

mutual

/-- The edit of a selection. -/
def onSelection (e : Edit) : Selection → Option Selection
  | .leaf f => e.selection (.leaf (e.onField f))
  | .nested f set =>
    e.selection (.nested (e.onField f) (e.fieldSelections (e.selections (e.onEach set))))
  | .spread s => e.selection (.spread (e.onSpread s))
  | .inline head set => e.selection (.inline (e.onInlineHead head) (e.selections (e.onEach set)))

/-- The edit of each selection of a set. -/
def onEach (e : Edit) : List Selection → List Selection
  | [] => []
  | s :: rest =>
    match e.onSelection s with
    | some s => s :: e.onEach rest
    | none => e.onEach rest

end

/-- The edit of a selection set. -/
def onSelections (e : Edit) (set : List Selection) : List Selection := e.selections (e.onEach set)

/-- The edit of an operation. -/
def onOperation (e : Edit) (op : Operation) : Operation :=
  { op with
    variableDefinitions := e.onVariables op.variableDefinitions
    directives := e.onDirectives op.directives
    selections := e.onSelections op.selections }

/-- The edit of a fragment. -/
def onFragment (e : Edit) (f : Fragment) : Fragment :=
  { f with
    directives := e.onDirectives f.directives
    selections := e.fragmentSelections (e.onSelections f.selections) }

/-- The edit of a definition. -/
def onDefinition (e : Edit) : Definition → Definition
  | .operation op => .operation (e.onOperation op)
  | .fragment f => .fragment (e.onFragment f)

/-- The edit of a document. -/
def apply (e : Edit) (d : Document) : Document :=
  ⟨e.definitions (d.definitions.map e.onDefinition)⟩

end Edit

end Safelist
