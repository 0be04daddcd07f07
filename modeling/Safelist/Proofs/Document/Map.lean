import Safelist.Proofs.Document.Parts

/-!
# Changes that keep the shape of a document

A map changes the values and the aliases of a document one by one, wherever they
stand, and leaves everything else as it is. Two such changes serve as yardsticks:
one makes every string a plain one, and one forgets what the literals say.
-/

namespace Safelist

mutual

/-- A value with every value in it changed that has no parts of its own. -/
def Value.mapLeaves (f : Value → Value) : Value → Value
  | .list items => .list (Value.mapItems f items)
  | .object members => .object (Value.mapMembers f members)
  | v => f v

/-- The items of a list, each changed. -/
def Value.mapItems (f : Value → Value) : List Value → List Value
  | [] => []
  | v :: rest => v.mapLeaves f :: Value.mapItems f rest

/-- The members of an input object, each with its value changed. -/
def Value.mapMembers (f : Value → Value) : List (String × Value) → List (String × Value)
  | [] => []
  | (name, v) :: rest => (name, v.mapLeaves f) :: Value.mapMembers f rest

end

/-- Items are changed one by one. -/
@[simp] theorem Value.mapItems_eq_map (f : Value → Value) (items : List Value) :
    Value.mapItems f items = items.map (Value.mapLeaves f) := by
  induction items with
  | nil => rfl
  | cons v rest ih => rw [Value.mapItems, ih, List.map_cons]

/-- Members are changed one by one. -/
@[simp] theorem Value.mapMembers_eq_map (f : Value → Value) (members : List (String × Value)) :
    Value.mapMembers f members = members.map fun m => (m.1, m.2.mapLeaves f) := by
  induction members with
  | nil => rfl
  | cons m rest ih => rw [Value.mapMembers, ih, List.map_cons]

@[simp] theorem Value.mapLeaves_list (f : Value → Value) (items : List Value) :
    (Value.list items).mapLeaves f = .list (items.map (Value.mapLeaves f)) := by
  rw [Value.mapLeaves, Value.mapItems_eq_map]

@[simp] theorem Value.mapLeaves_object (f : Value → Value) (members : List (String × Value)) :
    (Value.object members).mapLeaves f =
      .object (members.map fun m => (m.1, m.2.mapLeaves f)) := by
  rw [Value.mapLeaves, Value.mapMembers_eq_map]

/-- Whether a value has no parts of its own. -/
def Value.isLeaf : Value → Bool
  | .list _ => false
  | .object _ => false
  | _ => true

theorem Value.mapLeaves_of_isLeaf (f : Value → Value) {v : Value} (hv : v.isLeaf = true) :
    v.mapLeaves f = f v := by
  cases v with
  | list items => cases hv
  | object members => cases hv
  | _ => rfl

/-- Two changes of leaves in a row are one, if the first leaves them leaves. -/
theorem Value.mapLeaves_mapLeaves {f f' f'' : Value → Value}
    (hf : ∀ v, v.isLeaf = true → (f' v).isLeaf = true ∧ f (f' v) = f'' v) (v : Value) :
    (v.mapLeaves f').mapLeaves f = v.mapLeaves f'' := by
  have hleaf : ∀ v : Value, v.isLeaf = true →
      (v.mapLeaves f').mapLeaves f = v.mapLeaves f'' := by
    intro v hv
    rw [mapLeaves_of_isLeaf f' hv, mapLeaves_of_isLeaf f (hf v hv).1, (hf v hv).2,
      mapLeaves_of_isLeaf f'' hv]
  induction v with
  | list items ih => simpa using ih
  | object members ih => simpa using ih
  | _ => exact hleaf _ rfl

/-- Leaving leaves alone changes nothing. -/
theorem Value.mapLeaves_id (v : Value) : v.mapLeaves id = v := by
  induction v with
  | list items ih => rw [mapLeaves_list, List.map_congr_left ih, List.map_id']
  | object members ih =>
    have hm : ∀ m ∈ members, (m.1, m.2.mapLeaves id) = m := fun m hm => by rw [ih m hm]
    rw [mapLeaves_object, List.map_congr_left hm, List.map_id']
  | _ => rfl

variable (g : Value → Value) (h : Option String → Option String)

/-- An argument with its value changed. -/
def Argument.map (a : Argument) : Argument := { a with value := g a.value }

/-- A directive with the values of its arguments changed. -/
def Directive.map (d : Directive) : Directive :=
  { d with arguments := d.arguments.map (Argument.map g) }

/-- A variable with its default and the values in its directives changed. -/
def VariableDefinition.map (v : VariableDefinition) : VariableDefinition :=
  { v with
    defaultValue := v.defaultValue.map g
    directives := v.directives.map (Directive.map g) }

/-- A field with its alias and its values changed. -/
def Field.map (f : Field) : Field :=
  { f with
    aliasName := h f.aliasName
    arguments := f.arguments.map (Argument.map g)
    directives := f.directives.map (Directive.map g) }

/-- The use of a fragment with the values in its directives changed. -/
def Spread.map (s : Spread) : Spread := { s with directives := s.directives.map (Directive.map g) }

/-- The head of an inline fragment with the values in its directives changed. -/
def InlineHead.map (head : InlineHead) : InlineHead :=
  { head with directives := head.directives.map (Directive.map g) }

mutual

/-- A selection with its aliases and values changed, at any depth. -/
def Selection.map : Selection → Selection
  | .leaf f => .leaf (f.map g h)
  | .nested f set => .nested (f.map g h) (Selection.mapSet set)
  | .spread s => .spread (s.map g)
  | .inline head set => .inline (head.map g) (Selection.mapSet set)

/-- The selections of a set, each changed. -/
def Selection.mapSet : List Selection → List Selection
  | [] => []
  | s :: rest => s.map :: Selection.mapSet rest

end

/-- Selections are changed one by one. -/
@[simp] theorem Selection.mapSet_eq_map (set : List Selection) :
    Selection.mapSet g h set = set.map (Selection.map g h) := by
  induction set with
  | nil => rfl
  | cons s rest ih => rw [Selection.mapSet, ih, List.map_cons]

/-- An operation with its aliases and values changed. -/
def Operation.map (op : Operation) : Operation :=
  { op with
    variableDefinitions := op.variableDefinitions.map (VariableDefinition.map g)
    directives := op.directives.map (Directive.map g)
    selections := op.selections.map (Selection.map g h) }

/-- A fragment with its aliases and values changed. -/
def Fragment.map (f : Fragment) : Fragment :=
  { f with
    directives := f.directives.map (Directive.map g)
    selections := f.selections.map (Selection.map g h) }

/-- A definition with its aliases and values changed. -/
def Definition.map : Definition → Definition
  | .operation op => .operation (op.map g h)
  | .fragment f => .fragment (f.map g h)

/-- A document with its aliases and values changed. -/
def Document.map (d : Document) : Document := ⟨d.definitions.map (Definition.map g h)⟩

@[simp] theorem Document.operations_map (d : Document) :
    (d.map g h).operations = d.operations.map (Operation.map g h) :=
  Definition.filterMap_map_comm (fun x => by cases x <;> rfl) d.definitions

@[simp] theorem Document.fragments_map (d : Document) :
    (d.map g h).fragments = d.fragments.map (Fragment.map g h) :=
  Definition.filterMap_map_comm (fun x => by cases x <;> rfl) d.definitions

/-- A string as a plain one; any other value as it is. -/
def Value.unblocked : Value → Value
  | .string value _ => .string value false
  | v => v

/-- A value with every string in it made a plain one. -/
def Value.plain : Value → Value := Value.mapLeaves Value.unblocked

@[simp] theorem Value.plain_list (items : List Value) :
    (Value.list items).plain = .list (items.map Value.plain) :=
  Value.mapLeaves_list _ items

@[simp] theorem Value.plain_object (members : List (String × Value)) :
    (Value.object members).plain = .object (members.map fun m => (m.1, m.2.plain)) :=
  Value.mapLeaves_object _ members

/-- A document with every string made a plain one. -/
def Document.plain (d : Document) : Document := d.map Value.plain id

/-- A literal without what it says: every number is the same number, and every string is the
same string. Any other value is as it is. -/
def Value.forgotten : Value → Value
  | .int _ => .int "0"
  | .float _ => .int "0"
  | .string _ _ => .string "" false
  | v => v

/-- A value with its literals forgotten. -/
def Value.shape : Value → Value := Value.mapLeaves Value.forgotten

@[simp] theorem Value.shape_list (items : List Value) :
    (Value.list items).shape = .list (items.map Value.shape) :=
  Value.mapLeaves_list _ items

@[simp] theorem Value.shape_object (members : List (String × Value)) :
    (Value.object members).shape = .object (members.map fun m => (m.1, m.2.shape)) :=
  Value.mapLeaves_object _ members

/-- A document with its literals forgotten. -/
def Document.shape (d : Document) : Document := d.map Value.shape id

section Composition

variable {g h} {g' : Value → Value} {h' : Option String → Option String}

theorem Argument.map_map (a : Argument) : (a.map g').map g = a.map (g ∘ g') := rfl

theorem Directive.map_map (d : Directive) : (d.map g').map g = d.map (g ∘ g') := by
  simp [Directive.map, Argument.map]

theorem VariableDefinition.map_map (v : VariableDefinition) :
    (v.map g').map g = v.map (g ∘ g') := by
  simp [VariableDefinition.map, Directive.map_map]

theorem Field.map_map (f : Field) : (f.map g' h').map g h = f.map (g ∘ g') (h ∘ h') := by
  simp [Field.map, Argument.map_map, Directive.map_map]

theorem Spread.map_map (s : Spread) : (s.map g').map g = s.map (g ∘ g') := by
  simp [Spread.map, Directive.map_map]

theorem InlineHead.map_map (head : InlineHead) : (head.map g').map g = head.map (g ∘ g') := by
  simp [InlineHead.map, Directive.map_map]

theorem Selection.map_map (s : Selection) :
    (s.map g' h').map g h = s.map (g ∘ g') (h ∘ h') := by
  induction s with
  | leaf f => simp [Selection.map, Field.map_map]
  | nested f set ih => simpa [Selection.map, Field.map_map] using ih
  | spread s => simp [Selection.map, Spread.map_map]
  | inline head set ih => simpa [Selection.map, InlineHead.map_map] using ih

/-- Two changes in a row are one change. -/
theorem Document.map_map (d : Document) : (d.map g' h').map g h = d.map (g ∘ g') (h ∘ h') := by
  simp only [Document.map, List.map_map]
  congr 2
  funext e
  cases e <;> simp [Definition.map, Operation.map, Fragment.map, VariableDefinition.map_map,
    Directive.map_map, Selection.map_map]

end Composition

namespace Edit

/-- The edit of values and aliases alone. -/
def pointwise (f : Value → Value) (h : Option String → Option String) : Edit where
  value := f
  field x := { x with aliasName := h x.aliasName }

/-- Where no selection is dropped, a selection set is edited by a map. -/
theorem onEach_eq_map {e : Edit} {change : Selection → Selection} {set : List Selection}
    (hs : ∀ s ∈ set, e.onSelection s = some (change s)) : e.onEach set = set.map change := by
  induction set with
  | nil => rfl
  | cons s rest ih =>
    obtain ⟨hfirst, hrest⟩ := List.forall_mem_cons.1 hs
    rw [onEach, hfirst, ih hrest, List.map_cons]

variable (f : Value → Value) (h : Option String → Option String)

/-- An edit that leaves lists and input objects alone changes the leaves of a value. -/
theorem onValue_pointwise (hl : ∀ items, f (.list items) = .list items)
    (ho : ∀ members, f (.object members) = .object members) (v : Value) :
    (pointwise f h).onValue v = v.mapLeaves f := by
  induction v with
  | list items ih =>
    rw [onValue, onItems_eq_map, List.map_congr_left ih, Value.mapLeaves_list]
    exact hl _
  | object members ih =>
    have hm : ∀ m ∈ members, (m.1, (pointwise f h).onValue m.2) = (m.1, m.2.mapLeaves f) :=
      fun m hm => by rw [ih m hm]
    rw [onValue, onMembers_eq_map, List.map_congr_left hm, Value.mapLeaves_object]
    exact ho _
  | _ => rfl

theorem onSelection_pointwise (s : Selection) :
    (pointwise f h).onSelection s = some (s.map (pointwise f h).onValue h) := by
  induction s with
  | leaf x => rfl
  | nested x set ih =>
    rw [onSelection, onEach_eq_map ih, Selection.map, Selection.mapSet_eq_map]
    rfl
  | spread s => rfl
  | inline head set ih =>
    rw [onSelection, onEach_eq_map ih, Selection.map, Selection.mapSet_eq_map]
    rfl

theorem onSelections_pointwise (set : List Selection) :
    (pointwise f h).onSelections set = set.map (Selection.map (pointwise f h).onValue h) := by
  rw [onSelections, onEach_eq_map fun s _ => onSelection_pointwise f h s]
  rfl

/-- An edit of values and aliases alone keeps the shape of a document. -/
theorem apply_pointwise (d : Document) :
    (pointwise f h).apply d = d.map (pointwise f h).onValue h := by
  have he : ∀ x, (pointwise f h).onDefinition x = x.map (pointwise f h).onValue h := by
    intro x
    cases x with
    | operation op =>
      rw [onDefinition, onOperation, onSelections_pointwise]
      rfl
    | fragment x =>
      rw [onDefinition, onFragment, onSelections_pointwise]
      rfl
  unfold apply Document.map
  rw [funext he]
  rfl

end Edit

end Safelist
