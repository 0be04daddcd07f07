import Safelist.Proofs.Document.Map
import Safelist.Proofs.Signature.Order

/-!
# Documents in canonical order

Canonical order is told apart into what it makes of each part. It keeps the key of
every part, so bringing a document into order twice changes nothing more, and
changes of values and aliases can be made before or after it.
-/

namespace Safelist

open Signature

/-- A value with the members of every input object in it by name. -/
def Value.sorted (v : Value) : Value := canonicalOrder.onValue v

@[simp] theorem Value.sorted_list (items : List Value) :
    (Value.list items).sorted = .list (items.map Value.sorted) := by
  unfold Value.sorted
  rw [Edit.onValue, Edit.onItems_eq_map]
  rfl

@[simp] theorem Value.sorted_object (members : List (String × Value)) :
    (Value.object members).sorted =
      .object (sortByKey (fun m => Key.ofName m.1) (members.map fun m => (m.1, m.2.sorted))) := by
  unfold Value.sorted
  rw [Edit.onValue, Edit.onMembers_eq_map]
  rfl

/-- Arguments by name, each with its value in order. -/
def Argument.sortedList (as : List Argument) : List Argument :=
  sortByKey (fun a => Key.ofName a.name) (as.map (Argument.map Value.sorted))

/-- A directive with its arguments in order. -/
def Directive.sorted (d : Directive) : Directive :=
  { d with arguments := Argument.sortedList d.arguments }

/-- Directives by name, each in order. -/
def Directive.sortedList (ds : List Directive) : List Directive :=
  sortByKey (fun d => Key.ofName d.name) (ds.map Directive.sorted)

/-- A variable with its default and its directives in order. -/
def VariableDefinition.sorted (v : VariableDefinition) : VariableDefinition :=
  { v with
    defaultValue := v.defaultValue.map Value.sorted
    directives := Directive.sortedList v.directives }

/-- Variables by name, each in order. -/
def VariableDefinition.sortedList (vs : List VariableDefinition) : List VariableDefinition :=
  sortByKey (fun v => Key.ofName v.name) (vs.map VariableDefinition.sorted)

/-- A field with its arguments and its directives in order. -/
def Field.sorted (f : Field) : Field :=
  { f with
    arguments := Argument.sortedList f.arguments
    directives := Directive.sortedList f.directives }

/-- The use of a fragment with its directives in order. -/
def Spread.sorted (s : Spread) : Spread :=
  { s with directives := Directive.sortedList s.directives }

/-- The head of an inline fragment with its directives in order. -/
def InlineHead.sorted (head : InlineHead) : InlineHead :=
  { head with directives := Directive.sortedList head.directives }

mutual

/-- A selection with everything in it in order. -/
def Selection.sorted : Selection → Selection
  | .leaf f => .leaf f.sorted
  | .nested f set => .nested f.sorted (sortByKey selectionKey (Selection.sortedEach set))
  | .spread s => .spread s.sorted
  | .inline head set => .inline head.sorted (sortByKey selectionKey (Selection.sortedEach set))

/-- The selections of a set where they are, each in order. -/
def Selection.sortedEach : List Selection → List Selection
  | [] => []
  | s :: rest => s.sorted :: Selection.sortedEach rest

end

/-- Selections are brought into order one by one. -/
@[simp] theorem Selection.sortedEach_eq_map (set : List Selection) :
    Selection.sortedEach set = set.map Selection.sorted := by
  induction set with
  | nil => rfl
  | cons s rest ih => rw [Selection.sortedEach, ih, List.map_cons]

/-- Selections by their keys, each in order. -/
def Selection.sortedList (set : List Selection) : List Selection :=
  sortByKey selectionKey (set.map Selection.sorted)

/-- An operation with everything in it in order. -/
def Operation.sorted (op : Operation) : Operation :=
  { op with
    variableDefinitions := VariableDefinition.sortedList op.variableDefinitions
    directives := Directive.sortedList op.directives
    selections := Selection.sortedList op.selections }

/-- A fragment with everything in it in order. -/
def Fragment.sorted (f : Fragment) : Fragment :=
  { f with
    directives := Directive.sortedList f.directives
    selections := Selection.sortedList f.selections }

/-- A definition with everything in it in order. -/
def Definition.sorted : Definition → Definition
  | .operation op => .operation op.sorted
  | .fragment f => .fragment f.sorted

namespace Signature

theorem onSelection_canonicalOrder (s : Selection) :
    canonicalOrder.onSelection s = some s.sorted := by
  induction s with
  | leaf f => rfl
  | nested f set ih =>
    rw [Edit.onSelection, Edit.onEach_eq_map ih, Selection.sorted, Selection.sortedEach_eq_map]
    rfl
  | spread s => rfl
  | inline head set ih =>
    rw [Edit.onSelection, Edit.onEach_eq_map ih, Selection.sorted, Selection.sortedEach_eq_map]
    rfl

theorem onSelections_canonicalOrder (set : List Selection) :
    canonicalOrder.onSelections set = Selection.sortedList set := by
  rw [Edit.onSelections, Edit.onEach_eq_map fun s _ => onSelection_canonicalOrder s]
  rfl

theorem onDefinition_canonicalOrder (x : Definition) :
    canonicalOrder.onDefinition x = x.sorted := by
  cases x with
  | operation op =>
    rw [Edit.onDefinition, Edit.onOperation, onSelections_canonicalOrder]
    rfl
  | fragment f =>
    rw [Edit.onDefinition, Edit.onFragment, onSelections_canonicalOrder]
    rfl

/-- Canonical order is that of the definitions by their keys, each in order. -/
theorem definitions_sort (d : Document) :
    (sort d).definitions = sortByKey definitionKey (d.definitions.map Definition.sorted) := by
  unfold sort Edit.apply
  rw [funext onDefinition_canonicalOrder]
  rfl

/-- Canonical order keeps what is picked from the definitions. -/
theorem filterMap_sort_perm {α : Type} {pick : Definition → Option α} {change : α → α}
    (hc : ∀ x : Definition, pick x.sorted = (pick x).map change) (d : Document) :
    ((sort d).definitions.filterMap pick).Perm ((d.definitions.filterMap pick).map change) := by
  have hp := (sortByKey_perm definitionKey (d.definitions.map Definition.sorted)).filterMap pick
  rw [definitions_sort]
  simpa only [List.filterMap_map, List.map_filterMap, Function.comp_def, hc] using hp

theorem operations_sort_perm (d : Document) :
    (sort d).operations.Perm (d.operations.map Operation.sorted) :=
  filterMap_sort_perm (fun x => by cases x <;> rfl) d

theorem fragments_sort_perm (d : Document) :
    (sort d).fragments.Perm (d.fragments.map Fragment.sorted) :=
  filterMap_sort_perm (fun x => by cases x <;> rfl) d

end Signature

section Keys

@[simp] theorem Selection.selectionKey_sorted (s : Selection) :
    selectionKey s.sorted = selectionKey s := by
  cases s <;> rfl

@[simp] theorem Definition.definitionKey_sorted (x : Definition) :
    definitionKey x.sorted = definitionKey x := by
  cases x <;> rfl

@[simp] theorem Selection.selectionKey_map (g : Value → Value)
    (h : Option String → Option String) (s : Selection) :
    selectionKey (s.map g h) = selectionKey s := by
  cases s <;> rfl

@[simp] theorem Definition.definitionKey_map (g : Value → Value)
    (h : Option String → Option String) (x : Definition) :
    definitionKey (x.map g h) = definitionKey x := by
  cases x <;> rfl

end Keys

section Idempotence

@[simp] theorem Value.sorted_sorted (v : Value) : v.sorted.sorted = v.sorted := by
  induction v with
  | list items ih =>
    rw [Value.sorted_list, Value.sorted_list, List.map_map]
    exact congrArg _ (List.map_congr_left ih)
  | object members ih =>
    rw [Value.sorted_object, Value.sorted_object]
    congr 1
    refine sortByKey_map_idem (fun m hm => ?_) fun _ => rfl
    rw [ih m hm]
  | _ => rfl

@[simp] theorem Argument.sortedList_sortedList (as : List Argument) :
    Argument.sortedList (Argument.sortedList as) = Argument.sortedList as :=
  sortByKey_map_idem (fun a _ => by simp [Argument.map]) fun _ => rfl

@[simp] theorem Directive.sortedList_sortedList (ds : List Directive) :
    Directive.sortedList (Directive.sortedList ds) = Directive.sortedList ds :=
  sortByKey_map_idem (fun d _ => by simp [Directive.sorted]) fun _ => rfl

@[simp] theorem VariableDefinition.sortedList_sortedList (vs : List VariableDefinition) :
    VariableDefinition.sortedList (VariableDefinition.sortedList vs) =
      VariableDefinition.sortedList vs :=
  sortByKey_map_idem
    (fun v _ => by simp [VariableDefinition.sorted, Function.comp_def]) fun _ => rfl

@[simp] theorem Selection.sorted_sorted (s : Selection) : s.sorted.sorted = s.sorted := by
  induction s with
  | leaf f => simp [Selection.sorted, Field.sorted]
  | nested f set ih =>
    simp [Selection.sorted, Field.sorted, sortByKey_map_idem ih Selection.selectionKey_sorted]
  | spread s => simp [Selection.sorted, Spread.sorted]
  | inline head set ih =>
    simp [Selection.sorted, InlineHead.sorted,
      sortByKey_map_idem ih Selection.selectionKey_sorted]

@[simp] theorem Selection.sortedList_sortedList (set : List Selection) :
    Selection.sortedList (Selection.sortedList set) = Selection.sortedList set :=
  sortByKey_map_idem (fun s _ => s.sorted_sorted) Selection.selectionKey_sorted

@[simp] theorem Definition.sorted_sorted (x : Definition) : x.sorted.sorted = x.sorted := by
  cases x <;> simp [Definition.sorted, Operation.sorted, Fragment.sorted]

/-- A document in canonical order stays as it is. -/
@[simp] theorem Signature.sort_sort (d : Document) : sort (sort d) = sort d := by
  have h : (sort (sort d)).definitions = (sort d).definitions := by
    rw [definitions_sort, definitions_sort]
    exact sortByKey_map_idem (fun x _ => x.sorted_sorted) Definition.definitionKey_sorted
  exact congrArg Document.mk h

end Idempotence

section Commutation

variable {g : Value → Value} {h : Option String → Option String}

theorem Argument.sortedList_map (hg : ∀ v, (g v).sorted = g v.sorted) (as : List Argument) :
    Argument.sortedList (as.map (Argument.map g)) =
      (Argument.sortedList as).map (Argument.map g) :=
  sortByKey_map_comm (fun a _ => by simp [Argument.map, hg]) fun _ => rfl

theorem Directive.sortedList_map (hg : ∀ v, (g v).sorted = g v.sorted) (ds : List Directive) :
    Directive.sortedList (ds.map (Directive.map g)) =
      (Directive.sortedList ds).map (Directive.map g) :=
  sortByKey_map_comm
    (fun d _ => by simp [Directive.map, Directive.sorted, Argument.sortedList_map hg]) fun _ => rfl

theorem VariableDefinition.sortedList_map (hg : ∀ v, (g v).sorted = g v.sorted)
    (vs : List VariableDefinition) :
    VariableDefinition.sortedList (vs.map (VariableDefinition.map g)) =
      (VariableDefinition.sortedList vs).map (VariableDefinition.map g) :=
  sortByKey_map_comm
    (fun v _ => by
      simp [VariableDefinition.map, VariableDefinition.sorted, Directive.sortedList_map hg,
        Function.comp_def, hg])
    fun _ => rfl

theorem Selection.sorted_map (hg : ∀ v, (g v).sorted = g v.sorted) (s : Selection) :
    (s.map g h).sorted = s.sorted.map g h := by
  have hf : ∀ f : Field, (f.map g h).sorted = f.sorted.map g h := fun f => by
    simp [Field.map, Field.sorted, Argument.sortedList_map hg, Directive.sortedList_map hg]
  induction s with
  | leaf f => simp [Selection.map, Selection.sorted, hf]
  | nested f set ih =>
    have hs := sortByKey_map_comm ih (Selection.selectionKey_map g h)
    simp only [Selection.map, Selection.sorted, hf, Selection.mapSet_eq_map,
      Selection.sortedEach_eq_map, hs]
  | spread s =>
    simp [Selection.map, Selection.sorted, Spread.map, Spread.sorted, Directive.sortedList_map hg]
  | inline head set ih =>
    have hs := sortByKey_map_comm ih (Selection.selectionKey_map g h)
    simp only [Selection.map, Selection.sorted, InlineHead.map, InlineHead.sorted,
      Directive.sortedList_map hg, Selection.mapSet_eq_map, Selection.sortedEach_eq_map, hs]

theorem Selection.sortedList_map (hg : ∀ v, (g v).sorted = g v.sorted) (set : List Selection) :
    Selection.sortedList (set.map (Selection.map g h)) =
      (Selection.sortedList set).map (Selection.map g h) :=
  sortByKey_map_comm (fun s _ => s.sorted_map hg) (Selection.selectionKey_map g h)

theorem Definition.sorted_map (hg : ∀ v, (g v).sorted = g v.sorted) (x : Definition) :
    (x.map g h).sorted = x.sorted.map g h := by
  cases x <;>
    simp [Definition.map, Definition.sorted, Operation.map, Operation.sorted, Fragment.map,
      Fragment.sorted, VariableDefinition.sortedList_map hg, Directive.sortedList_map hg,
      Selection.sortedList_map hg]

/-- Changes of values and aliases can be made before a document is brought into order. -/
theorem Signature.sort_map (hg : ∀ v, (g v).sorted = g v.sorted) (d : Document) :
    sort (d.map g h) = (sort d).map g h := by
  have hd : (sort (d.map g h)).definitions = ((sort d).map g h).definitions := by
    rw [definitions_sort]
    simp only [Document.map, definitions_sort]
    exact sortByKey_map_comm (fun x _ => x.sorted_map hg) (Definition.definitionKey_map g h)
  exact congrArg Document.mk hd

end Commutation

end Safelist
