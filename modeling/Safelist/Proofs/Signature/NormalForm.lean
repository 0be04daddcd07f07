import Safelist.Proofs.Signature.Rearrangement

/-!
# Canonical order is a normal form

A document is in order when the siblings of every list in it, at every depth,
stand by their keys. Exactly one rearrangement of a document is in order, and that
is its canonical order. So canonical order picks one document out of each class of
documents that are rearrangements of each other.
-/

namespace Safelist

open Signature

section Siblings

variable {α : Type} {key : α → Key}

/-- Siblings stand by their keys, and each of them is in order itself. -/
structure Signature.StandInOrder (key : α → Key) (p : α → Prop) (xs : List α) : Prop where
  /-- No key is less than the one before it. -/
  ordered : xs.Pairwise fun a b => (key a).le (key b) = true
  /-- Each is in order. -/
  each : ∀ x ∈ xs, p x

/-- Sorting leaves exactly those lists as they are that stand by their keys. -/
theorem Signature.sortByKey_eq_self_iff {xs : List α} :
    sortByKey key xs = xs ↔ xs.Pairwise fun a b => (key a).le (key b) = true := by
  constructor
  · intro h
    have hp := pairwise_sortByKey key xs
    rwa [h] at hp
  · exact (stablePerm_sortByKey key xs).eq_of_pairwise (pairwise_sortByKey key xs)

/-- Where a change leaves exactly those entries as they are that are in order, changing and
sorting leaves exactly those lists as they are that stand in order. -/
theorem Signature.standInOrder_iff {p : α → Prop} {f : α → α} (hf : ∀ x, key (f x) = key x)
    {xs : List α} (hp : ∀ x ∈ xs, p x ↔ f x = x) :
    StandInOrder key p xs ↔ sortByKey key (xs.map f) = xs := by
  rw [sortByKey_map hf]
  constructor
  · intro h
    have hmap : xs.map f = xs.map id := List.map_congr_left fun x hx => (hp x hx).mp (h.each x hx)
    rw [sortByKey_eq_self_iff.mpr h.ordered, hmap, List.map_id]
  · intro h
    have hsort : xs.Pairwise fun a b => (key a).le (key b) = true := by
      rw [← h, ← sortByKey_map hf]
      exact pairwise_sortByKey key _
    rw [sortByKey_eq_self_iff.mpr hsort] at h
    refine ⟨hsort, fun x hx => (hp x hx).mpr ?_⟩
    exact eq_of_map_eq_self h x hx

end Siblings

/-- A value in which the members of every input object stand by name. -/
inductive Value.InOrder : Value → Prop
  /-- A value without parts is in order. -/
  | leaf {v : Value} (h : v.isLeaf = true) : Value.InOrder v
  /-- The items of a list are in order, wherever they stand. -/
  | list {items : List Value} (each : ∀ v ∈ items, Value.InOrder v) :
    Value.InOrder (.list items)
  /-- The members of an input object stand by name. -/
  | object {members : List (String × Value)}
    (ordered : members.Pairwise fun m m' => (Key.ofName m.1).le (Key.ofName m'.1) = true)
    (each : ∀ m ∈ members, Value.InOrder m.2) :
    Value.InOrder (.object members)

/-- Arguments in order. -/
def Argument.ListInOrder : List Argument → Prop :=
  StandInOrder (fun a => Key.ofName a.name) fun a => a.value.InOrder

/-- Directives in order. -/
def Directive.ListInOrder : List Directive → Prop :=
  StandInOrder (fun d => Key.ofName d.name) fun d => Argument.ListInOrder d.arguments

/-- A variable with its default and its directives in order. -/
structure VariableDefinition.InOrder (v : VariableDefinition) : Prop where
  /-- The default is in order. -/
  defaultValue : ∀ value ∈ v.defaultValue, value.InOrder
  /-- The directives are in order. -/
  directives : Directive.ListInOrder v.directives

/-- A field with its arguments and its directives in order. -/
structure Field.InOrder (f : Field) : Prop where
  /-- The arguments are in order. -/
  arguments : Argument.ListInOrder f.arguments
  /-- The directives are in order. -/
  directives : Directive.ListInOrder f.directives

/-- A selection with everything in it in order, at any depth. -/
inductive Selection.InOrder : Selection → Prop
  /-- A field without selection set. -/
  | leaf {f : Field} (h : f.InOrder) : Selection.InOrder (.leaf f)
  /-- The selections of a field stand by their keys. -/
  | nested {f : Field} {set : List Selection} (h : f.InOrder)
    (ordered : set.Pairwise fun s t => (selectionKey s).le (selectionKey t) = true)
    (each : ∀ s ∈ set, Selection.InOrder s) : Selection.InOrder (.nested f set)
  /-- The use of a fragment. -/
  | spread {s : Spread} (h : Directive.ListInOrder s.directives) : Selection.InOrder (.spread s)
  /-- The selections of an inline fragment stand by their keys. -/
  | inline {head : InlineHead} {set : List Selection} (h : Directive.ListInOrder head.directives)
    (ordered : set.Pairwise fun s t => (selectionKey s).le (selectionKey t) = true)
    (each : ∀ s ∈ set, Selection.InOrder s) : Selection.InOrder (.inline head set)

/-- Selections in order. -/
def Selection.ListInOrder : List Selection → Prop := StandInOrder selectionKey Selection.InOrder

/-- An operation with everything in it in order. -/
structure Operation.InOrder (op : Operation) : Prop where
  /-- The variables are in order. -/
  variableDefinitions : StandInOrder (fun v => Key.ofName v.name) VariableDefinition.InOrder
    op.variableDefinitions
  /-- The directives are in order. -/
  directives : Directive.ListInOrder op.directives
  /-- The selections are in order. -/
  selections : Selection.ListInOrder op.selections

/-- A fragment with everything in it in order. -/
structure Fragment.InOrder (f : Fragment) : Prop where
  /-- The directives are in order. -/
  directives : Directive.ListInOrder f.directives
  /-- The selections are in order. -/
  selections : Selection.ListInOrder f.selections

/-- A definition with everything in it in order. -/
def Definition.InOrder : Definition → Prop
  | .operation op => op.InOrder
  | .fragment f => f.InOrder

/-- A document with everything in it in order. -/
def Document.InOrder (d : Document) : Prop :=
  StandInOrder definitionKey Definition.InOrder d.definitions

/-- A value is in order when canonical order leaves it as it is. -/
theorem Value.inOrder_iff {v : Value} : v.InOrder ↔ v.sorted = v := by
  induction v with
  | list items ih =>
    rw [Value.sorted_list, Value.list.injEq]
    constructor
    · intro h
      cases h with
      | leaf h => cases h
      | list each =>
        rw [List.map_congr_left fun v hv => (ih v hv).mp (each v hv), List.map_id']
    · intro h
      refine .list fun v hv => (ih v hv).mpr ?_
      exact eq_of_map_eq_self h v hv
  | object members ih =>
    have hm : ∀ m ∈ members, m.2.InOrder ↔ (m.1, m.2.sorted) = m := by
      intro m hm
      rw [ih m hm]
      exact ⟨fun h => by rw [h], congrArg Prod.snd⟩
    rw [Value.sorted_object, Value.object.injEq,
      ← standInOrder_iff (f := fun m : String × Value => (m.1, m.2.sorted)) (fun _ => rfl) hm]
    constructor
    · intro h
      cases h with
      | leaf h => cases h
      | object ordered each => exact ⟨ordered, each⟩
    · exact fun h => .object h.ordered h.each
  | _ => exact ⟨fun _ => rfl, fun _ => .leaf rfl⟩

theorem Argument.listInOrder_iff {as : List Argument} :
    Argument.ListInOrder as ↔ Argument.sortedList as = as := by
  refine standInOrder_iff (f := Argument.map Value.sorted) (fun _ => rfl) fun a _ => ?_
  cases a
  simp [Argument.map, Value.inOrder_iff]

theorem Directive.listInOrder_iff {ds : List Directive} :
    Directive.ListInOrder ds ↔ Directive.sortedList ds = ds := by
  refine standInOrder_iff (f := Directive.sorted) (fun _ => rfl) fun d _ => ?_
  cases d
  simp [Directive.sorted, Argument.listInOrder_iff]

theorem VariableDefinition.inOrder_iff {v : VariableDefinition} :
    v.InOrder ↔ v.sorted = v := by
  obtain ⟨name, type, defaultValue, directives⟩ := v
  have hd : (∀ value ∈ defaultValue, value.InOrder) ↔
      defaultValue.map Value.sorted = defaultValue := by
    cases defaultValue <;> simp [Value.inOrder_iff]
  simp only [VariableDefinition.sorted, VariableDefinition.mk.injEq, true_and, ← hd,
    ← Directive.listInOrder_iff]
  exact ⟨fun h => ⟨h.defaultValue, h.directives⟩, fun h => ⟨h.1, h.2⟩⟩

theorem Field.inOrder_iff {f : Field} : f.InOrder ↔ f.sorted = f := by
  obtain ⟨aliasName, name, arguments, directives⟩ := f
  simp only [Field.sorted, Field.mk.injEq, true_and, ← Argument.listInOrder_iff,
    ← Directive.listInOrder_iff]
  exact ⟨fun h => ⟨h.arguments, h.directives⟩, fun h => ⟨h.1, h.2⟩⟩

theorem Spread.inOrder_iff {s : Spread} :
    Directive.ListInOrder s.directives ↔ s.sorted = s := by
  cases s
  simp [Spread.sorted, Directive.listInOrder_iff]

theorem InlineHead.inOrder_iff {head : InlineHead} :
    Directive.ListInOrder head.directives ↔ head.sorted = head := by
  cases head
  simp [InlineHead.sorted, Directive.listInOrder_iff]

/-- A selection is in order when canonical order leaves it as it is. -/
theorem Selection.inOrder_iff {s : Selection} : s.InOrder ↔ s.sorted = s := by
  induction s with
  | leaf f =>
    rw [Selection.sorted, Selection.leaf.injEq, ← Field.inOrder_iff]
    refine ⟨fun h => ?_, .leaf⟩
    cases h with
    | leaf h => exact h
  | nested f set ih =>
    rw [Selection.sorted, Selection.sortedEach_eq_map, Selection.nested.injEq,
      ← Field.inOrder_iff, ← standInOrder_iff Selection.selectionKey_sorted ih]
    constructor
    · intro h
      cases h with
      | nested h ordered each => exact ⟨h, ordered, each⟩
    · exact fun h => .nested h.1 h.2.ordered h.2.each
  | spread s =>
    rw [Selection.sorted, Selection.spread.injEq, ← Spread.inOrder_iff]
    refine ⟨fun h => ?_, .spread⟩
    cases h with
    | spread h => exact h
  | inline head set ih =>
    rw [Selection.sorted, Selection.sortedEach_eq_map, Selection.inline.injEq,
      ← InlineHead.inOrder_iff, ← standInOrder_iff Selection.selectionKey_sorted ih]
    constructor
    · intro h
      cases h with
      | inline h ordered each => exact ⟨h, ordered, each⟩
    · exact fun h => .inline h.1 h.2.ordered h.2.each

theorem Selection.listInOrder_iff {set : List Selection} :
    Selection.ListInOrder set ↔ Selection.sortedList set = set :=
  standInOrder_iff Selection.selectionKey_sorted fun _ _ => Selection.inOrder_iff

theorem Operation.inOrder_iff {op : Operation} : op.InOrder ↔ op.sorted = op := by
  obtain ⟨kind, name, variableDefinitions, directives, selections⟩ := op
  have hv : StandInOrder (fun v => Key.ofName v.name) VariableDefinition.InOrder
      variableDefinitions ↔
        VariableDefinition.sortedList variableDefinitions = variableDefinitions :=
    standInOrder_iff (f := VariableDefinition.sorted) (fun _ => rfl) fun _ _ =>
      VariableDefinition.inOrder_iff
  simp only [Operation.sorted, Operation.mk.injEq, true_and, ← hv, ← Directive.listInOrder_iff,
    ← Selection.listInOrder_iff]
  exact ⟨fun h => ⟨h.variableDefinitions, h.directives, h.selections⟩,
    fun h => ⟨h.1, h.2.1, h.2.2⟩⟩

theorem Fragment.inOrder_iff {f : Fragment} : f.InOrder ↔ f.sorted = f := by
  obtain ⟨name, typeCondition, directives, selections⟩ := f
  simp only [Fragment.sorted, Fragment.mk.injEq, true_and, ← Directive.listInOrder_iff,
    ← Selection.listInOrder_iff]
  exact ⟨fun h => ⟨h.directives, h.selections⟩, fun h => ⟨h.1, h.2⟩⟩

theorem Definition.inOrder_iff {x : Definition} : x.InOrder ↔ x.sorted = x := by
  cases x <;>
    simp [Definition.InOrder, Definition.sorted, Operation.inOrder_iff, Fragment.inOrder_iff]

/-- A document is in order when canonical order leaves it as it is. -/
theorem Document.inOrder_iff {d : Document} : d.InOrder ↔ sort d = d := by
  have hd : sort d = d ↔ (sort d).definitions = d.definitions :=
    ⟨congrArg Document.definitions, congrArg Document.mk⟩
  rw [hd, definitions_sort]
  exact standInOrder_iff Definition.definitionKey_sorted fun _ _ => Definition.inOrder_iff

/-- The canonical order of a document is its only rearrangement that is in order. So documents have
one canonical order exactly when they are rearrangements of each other, and what is in canonical
order stays as it is. -/
theorem Signature.sort_unique_in_order :
    (∀ d d' : Document, d.Rearranged d' ∧ d'.InOrder ↔ d' = sort d) ∧
      (∀ a b : Document, sort a = sort b ↔ a.Rearranged b) ∧
      ∀ d : Document, sort (sort d) = sort d := by
  refine ⟨fun d d' => ?_, fun a b => Document.rearranged_iff.symm, sort_sort⟩
  rw [Document.rearranged_iff, Document.inOrder_iff]
  constructor
  · rintro ⟨h, ho⟩
    exact ho.symm.trans h.symm
  · rintro rfl
    exact ⟨(sort_sort d).symm, sort_sort d⟩

end Safelist
