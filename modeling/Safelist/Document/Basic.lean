/-!
# Documents

A document is a list of operations and fragments. A selection either ends in a
leaf field or opens a list of selections of its own, so a tree of selections is
a tree of lists; everything else about a selection stands in its head. Nothing
here restricts names or lists: trees that no text denotes are documents too.
-/

namespace Safelist

/-- A reference to an input type. -/
inductive TypeRef where
  /-- A type by its name. -/
  | named (name : String)
  /-- Lists of a type. -/
  | list (item : TypeRef)
  /-- A type without null. -/
  | nonNull (inner : TypeRef)

/-- A value as it is written in a document. -/
inductive Value where
  /-- A variable, named without its dollar sign. -/
  | var (name : String)
  /-- An integer in the digits it was written in. -/
  | int (text : String)
  /-- A number with fraction or exponent, as it was written. -/
  | float (text : String)
  /-- A decoded string; the flag tells whether it was a block string. -/
  | string (value : String) (isBlock : Bool)
  /-- A truth value. -/
  | boolean (value : Bool)
  /-- The null value. -/
  | null
  /-- A name that stands for itself. -/
  | enum (name : String)
  /-- A list of values. -/
  | list (items : List Value)
  /-- An input object: names with their values. -/
  | object (members : List (String × Value))

/-- A named value given to a field or a directive. -/
structure Argument where
  /-- The argument's name. -/
  name : String
  /-- The value given. -/
  value : Value

/-- An annotation. -/
structure Directive where
  /-- The directive's name without its at sign. -/
  name : String
  /-- The values given to it. -/
  arguments : List Argument

/-- A variable that an operation declares. -/
structure VariableDefinition where
  /-- The variable's name without its dollar sign. -/
  name : String
  /-- Its type. -/
  type : TypeRef
  /-- The value it has when none is given. -/
  defaultValue : Option Value
  /-- Annotations on the declaration. -/
  directives : List Directive

/-- What stands before a field's own selections. -/
structure Field where
  /-- The name under which the field is answered, when it differs. -/
  aliasName : Option String
  /-- The field's name. -/
  name : String
  /-- The values given to it. -/
  arguments : List Argument
  /-- Annotations on the field. -/
  directives : List Directive

/-- The name under which a field is answered. -/
def Field.responseKey (field : Field) : String := field.aliasName.getD field.name

/-- A field of this name and nothing else. -/
def Field.plain (name : String) : Field := ⟨none, name, [], []⟩

/-- The use of a fragment by its name. -/
structure Spread where
  /-- The fragment's name. -/
  name : String
  /-- Annotations on the use. -/
  directives : List Directive

/-- What stands before the selections of an inline fragment. -/
structure InlineHead where
  /-- The type it applies to, if one is named. -/
  typeCondition : Option String
  /-- Annotations on it. -/
  directives : List Directive

/-- One entry of a selection set. -/
inductive Selection where
  /-- A field without a selection set. -/
  | leaf (field : Field)
  /-- A field with a selection set, which may be empty. -/
  | nested (field : Field) (selections : List Selection)
  /-- The use of a named fragment. -/
  | spread (spread : Spread)
  /-- A fragment without a name. -/
  | inline (head : InlineHead) (selections : List Selection)

/-- Annotations on a selection. -/
def Selection.directives : Selection → List Directive
  | .leaf field => field.directives
  | .nested field _ => field.directives
  | .spread use => use.directives
  | .inline head _ => head.directives

/-- The kinds of operation. -/
inductive OperationKind where
  | query
  | mutation
  | subscription
deriving DecidableEq

/-- The keyword of a kind of operation. -/
def OperationKind.keyword : OperationKind → String
  | .query => "query"
  | .mutation => "mutation"
  | .subscription => "subscription"

/-- The kind of operation that a keyword begins. -/
def OperationKind.ofKeyword? (word : String) : Option OperationKind :=
  if word = "query" then some .query
  else if word = "mutation" then some .mutation
  else if word = "subscription" then some .subscription
  else none

/-- An operation. -/
structure Operation where
  /-- Its kind. -/
  kind : OperationKind
  /-- Its name; an operation may be anonymous. -/
  name : Option String
  /-- The variables it declares. -/
  variableDefinitions : List VariableDefinition
  /-- Annotations on it. -/
  directives : List Directive
  /-- Its root selection set. -/
  selections : List Selection

/-- An operation that declares one more variable. -/
def Operation.declare (op : Operation) (v : VariableDefinition) : Operation :=
  { op with variableDefinitions := op.variableDefinitions ++ [v] }

/-- A fragment with a name. -/
structure Fragment where
  /-- Its name. -/
  name : String
  /-- The type it applies to. -/
  typeCondition : String
  /-- Annotations on it. -/
  directives : List Directive
  /-- Its selection set. -/
  selections : List Selection

/-- One definition of a document. -/
inductive Definition where
  /-- An operation. -/
  | operation (operation : Operation)
  /-- A fragment. -/
  | fragment (fragment : Fragment)

namespace Definition

/-- The name of a definition, if it has one. -/
def name? : Definition → Option String
  | .operation op => op.name
  | .fragment f => some f.name

/-- The selection set of a definition. -/
def selections : Definition → List Selection
  | .operation op => op.selections
  | .fragment f => f.selections

/-- The operation that a definition is, if it is one. -/
def operation? : Definition → Option Operation
  | .operation op => some op
  | .fragment _ => none

/-- The fragment that a definition is, if it is one. -/
def fragment? : Definition → Option Fragment
  | .operation _ => none
  | .fragment f => some f

end Definition

/-- A list of definitions. -/
structure Document where
  /-- The definitions in order. -/
  definitions : List Definition

namespace Document

/-- The operations of a document in order. -/
def operations (d : Document) : List Operation := d.definitions.filterMap Definition.operation?

/-- The fragments of a document in order. -/
def fragments (d : Document) : List Fragment := d.definitions.filterMap Definition.fragment?

end Document

end Safelist
