import Safelist.Proofs.Document.Map
import Safelist.Proofs.Lexical.Spelling

/-!
# Well-formed documents

A well-formed document is one that some text denotes: its names, numbers and
enumeration values can be written, variables stand only where they may, there is
a definition, and no selection set is empty. Spelling and emptiness are told
apart, because an edit may leave a selection set empty but never misspells.
-/

namespace Safelist

open Lexical

/-- Whether a type bears an exclamation mark. -/
def TypeRef.isNonNull : TypeRef → Bool
  | .nonNull _ => true
  | _ => false

/-- Types bear names, and no type bears two exclamation marks. -/
inductive TypeRef.WellSpelled : TypeRef → Prop
  /-- A type may have any name. -/
  | named {name : String} (h : IsName name) : WellSpelled (.named name)
  /-- Any type may be an item's. -/
  | list {item : TypeRef} (h : item.WellSpelled) : WellSpelled (.list item)
  /-- A type bears at most one exclamation mark. -/
  | nonNull {inner : TypeRef} (h : inner.WellSpelled) (hn : inner.isNonNull = false) :
    WellSpelled (.nonNull inner)

/-- The names that values may not be, because they mean something else. -/
def reservedValues : List String := ["true", "false", "null"]

/-- A value that can be written, with variables only where it need not be constant. -/
inductive Value.WellSpelled (constant : Bool) : Value → Prop
  /-- A variable is no constant. -/
  | var {name : String} (h : IsName name) (hc : constant = false) : WellSpelled constant (.var name)
  /-- An integer follows the grammar of numbers. -/
  | int {text : String} (h : IsInt text) : WellSpelled constant (.int text)
  /-- A number with fraction or exponent follows the grammar of numbers. -/
  | float {text : String} (h : IsFloat text) : WellSpelled constant (.float text)
  /-- A string may hold anything. -/
  | string (value : String) (isBlock : Bool) : WellSpelled constant (.string value isBlock)
  /-- Truth values can be written. -/
  | boolean (value : Bool) : WellSpelled constant (.boolean value)
  /-- The null value can be written. -/
  | null : WellSpelled constant .null
  /-- An enumeration value is a name that means nothing else. -/
  | enum {name : String} (h : IsName name) (hr : name ∉ reservedValues) :
    WellSpelled constant (.enum name)
  /-- A list holds values. -/
  | list {items : List Value} (h : ∀ v ∈ items, v.WellSpelled constant) :
    WellSpelled constant (.list items)
  /-- An input object holds values under names. -/
  | object {members : List (String × Value)} (hn : ∀ m ∈ members, IsName m.1)
    (h : ∀ m ∈ members, m.2.WellSpelled constant) : WellSpelled constant (.object members)

/-- An argument that can be written. -/
structure Argument.WellSpelled (constant : Bool) (a : Argument) : Prop where
  /-- The argument has a name. -/
  name : IsName a.name
  /-- Its value can be written. -/
  value : a.value.WellSpelled constant

/-- A directive that can be written. -/
structure Directive.WellSpelled (constant : Bool) (d : Directive) : Prop where
  /-- The directive has a name. -/
  name : IsName d.name
  /-- Its arguments can be written. -/
  arguments : ∀ a ∈ d.arguments, a.WellSpelled constant

/-- A variable's declaration that can be written; nothing in it uses a variable. -/
structure VariableDefinition.WellSpelled (v : VariableDefinition) : Prop where
  /-- The variable has a name. -/
  name : IsName v.name
  /-- Its type can be written. -/
  type : v.type.WellSpelled
  /-- Its default is a constant. -/
  defaultValue : ∀ value ∈ v.defaultValue, value.WellSpelled true
  /-- Its directives hold constants only. -/
  directives : ∀ d ∈ v.directives, d.WellSpelled true

/-- A field that can be written. -/
structure Field.WellSpelled (f : Field) : Prop where
  /-- An alias is a name. -/
  aliasName : ∀ name ∈ f.aliasName, IsName name
  /-- The field has a name. -/
  name : IsName f.name
  /-- Its arguments can be written. -/
  arguments : ∀ a ∈ f.arguments, a.WellSpelled false
  /-- Its directives can be written. -/
  directives : ∀ d ∈ f.directives, d.WellSpelled false

/-- The use of a fragment that can be written. -/
structure Spread.WellSpelled (s : Spread) : Prop where
  /-- The fragment has a name. -/
  name : IsName s.name
  /-- It is not the word before the type of an inline fragment. -/
  name_ne : s.name ≠ "on"
  /-- The directives can be written. -/
  directives : ∀ d ∈ s.directives, d.WellSpelled false

/-- The head of an inline fragment that can be written. -/
structure InlineHead.WellSpelled (head : InlineHead) : Prop where
  /-- A type is a name. -/
  typeCondition : ∀ type ∈ head.typeCondition, IsName type
  /-- The directives can be written. -/
  directives : ∀ d ∈ head.directives, d.WellSpelled false

/-- A selection that can be written, at every depth. -/
inductive Selection.WellSpelled : Selection → Prop
  /-- A field may end there. -/
  | leaf {f : Field} (h : f.WellSpelled) : WellSpelled (.leaf f)
  /-- A field may open a selection set. -/
  | nested {f : Field} {set : List Selection} (h : f.WellSpelled)
    (hs : ∀ s ∈ set, s.WellSpelled) : WellSpelled (.nested f set)
  /-- A fragment may be used. -/
  | spread {s : Spread} (h : s.WellSpelled) : WellSpelled (.spread s)
  /-- A fragment may stand inline. -/
  | inline {head : InlineHead} {set : List Selection} (h : head.WellSpelled)
    (hs : ∀ s ∈ set, s.WellSpelled) : WellSpelled (.inline head set)

/-- An operation that can be written. -/
structure Operation.WellSpelled (op : Operation) : Prop where
  /-- The operation may have a name. -/
  name : ∀ name ∈ op.name, IsName name
  /-- Its variables can be written. -/
  variableDefinitions : ∀ v ∈ op.variableDefinitions, v.WellSpelled
  /-- Its directives can be written. -/
  directives : ∀ d ∈ op.directives, d.WellSpelled false
  /-- Its selections can be written. -/
  selections : ∀ s ∈ op.selections, s.WellSpelled

/-- A fragment that can be written. -/
structure Fragment.WellSpelled (f : Fragment) : Prop where
  /-- The fragment has a name. -/
  name : IsName f.name
  /-- It is not the word before the fragment's type. -/
  name_ne : f.name ≠ "on"
  /-- Its type has a name. -/
  typeCondition : IsName f.typeCondition
  /-- Its directives can be written. -/
  directives : ∀ d ∈ f.directives, d.WellSpelled false
  /-- Its selections can be written. -/
  selections : ∀ s ∈ f.selections, s.WellSpelled

/-- A definition that can be written. -/
def Definition.WellSpelled : Definition → Prop
  | .operation op => op.WellSpelled
  | .fragment f => f.WellSpelled

/-- No selection set inside a selection is empty. -/
inductive Selection.Filled : Selection → Prop
  /-- A field without selection set holds no empty one. -/
  | leaf (f : Field) : Filled (.leaf f)
  /-- A field's selection set is not empty. -/
  | nested (f : Field) {set : List Selection} (hne : set ≠ []) (hs : ∀ s ∈ set, s.Filled) :
    Filled (.nested f set)
  /-- The use of a fragment holds no selection set. -/
  | spread (s : Spread) : Filled (.spread s)
  /-- An inline fragment's selection set is not empty. -/
  | inline (head : InlineHead) {set : List Selection} (hne : set ≠ [])
    (hs : ∀ s ∈ set, s.Filled) : Filled (.inline head set)

/-- A selection set is not empty, and none in it is. -/
structure FilledSet (set : List Selection) : Prop where
  /-- There is a selection. -/
  ne_nil : set ≠ []
  /-- The selections hold no empty set. -/
  filled : ∀ s ∈ set, s.Filled

/-- A document that some text denotes. -/
structure Document.WellFormed (d : Document) : Prop where
  /-- There is a definition. -/
  ne_nil : d.definitions ≠ []
  /-- The definitions can be written. -/
  wellSpelled : ∀ x ∈ d.definitions, x.WellSpelled
  /-- No selection set is empty. -/
  filled : ∀ x ∈ d.definitions, FilledSet x.selections

end Safelist
