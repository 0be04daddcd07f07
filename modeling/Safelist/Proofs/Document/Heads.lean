import Safelist.Proofs.Document.Map

/-!
# Edits of selection sets alone

Some edits do nothing to values and lists of directives, so they leave the head of
every selection and of every definition as it is. What they make of a document is
what they make of its selection sets.
-/

namespace Safelist

namespace Edit

/-- An edit does nothing to what stands before selection sets. -/
structure KeepsHeads (e : Edit) : Prop where
  /-- Values stay. -/
  value : e.value = id
  /-- Arguments stay. -/
  arguments : e.arguments = id
  /-- Directives stay. -/
  directives : e.directives = id
  /-- Variables stay. -/
  variableDefinitions : e.variableDefinitions = id
  /-- Fields stay. -/
  field : e.field = id

/-- An edit that does nothing to a value by itself does nothing to values inside others. -/
theorem onValue_of_value {e : Edit} (he : e.value = id) (v : Value) : e.onValue v = v := by
  induction v with
  | list items ih =>
    have hmap : items.map e.onValue = items.map id := List.map_congr_left ih
    rw [onValue, he, onItems_eq_map, hmap, List.map_id, id_eq]
  | object members ih =>
    have hmap : (members.map fun m => (m.1, e.onValue m.2)) = members.map id :=
      List.map_congr_left fun m hm => by rw [ih m hm, id_eq]
    rw [onValue, he, onMembers_eq_map, hmap, List.map_id, id_eq]
  | _ => exact congrFun he _

namespace KeepsHeads

variable {e : Edit} (he : e.KeepsHeads)
include he

theorem onValue_eq (v : Value) : e.onValue v = v := onValue_of_value he.value v

theorem onArguments_eq (as : List Argument) : e.onArguments as = as := by
  simp [onArguments, he.arguments, he.onValue_eq]

theorem onDirectives_eq (ds : List Directive) : e.onDirectives ds = ds := by
  simp [onDirectives, he.directives, he.onArguments_eq]

theorem onVariables_eq (vs : List VariableDefinition) : e.onVariables vs = vs := by
  have hv : e.onValue = id := funext he.onValue_eq
  simp [onVariables, he.variableDefinitions, hv, he.onDirectives_eq]

theorem onField_eq (f : Field) : e.onField f = f := by
  simp [onField, he.field, he.onArguments_eq, he.onDirectives_eq]

theorem onSpread_eq (s : Spread) : e.onSpread s = s := by
  simp [onSpread, he.onDirectives_eq]

theorem onInlineHead_eq (head : InlineHead) : e.onInlineHead head = head := by
  simp [onInlineHead, he.onDirectives_eq]

/-- Of an operation, only the selections are edited. -/
theorem onOperation_eq (op : Operation) :
    e.onOperation op = { op with selections := e.onSelections op.selections } := by
  simp [onOperation, he.onVariables_eq, he.onDirectives_eq]

/-- Of a fragment, only the selections are edited. -/
theorem onFragment_eq (f : Fragment) :
    e.onFragment f = { f with
      selections := e.fragmentSelections (e.onSelections f.selections) } := by
  simp [onFragment, he.onDirectives_eq]

end KeepsHeads

end Edit

/-- The fragments of a document are edited one by one. -/
theorem Document.fragments_apply {e : Edit} (he : e.definitions = id) (d : Document) :
    (e.apply d).fragments = d.fragments.map e.onFragment := by
  rw [fragments, Edit.apply, he]
  exact Definition.filterMap_map_comm (fun x => by cases x <;> rfl) d.definitions

end Safelist
