import Mathlib.Data.List.Forall2
import Safelist.Proofs.Signature.Sorted

/-!
# Rearranged documents

A document is a rearrangement of another when siblings, at every depth, have been
reordered so that those of one key stay in order. Documents are rearrangements of
each other exactly when they have the same canonical order.
-/

namespace Safelist

open Signature

section Siblings

variable {α β : Type} {key : α → Key} {key' : β → Key}

/-- Siblings are related one by one, after a stable rearrangement. -/
def Siblings (R : α → α → Prop) (key : α → Key) (xs ys : List α) : Prop :=
  ∃ mid, List.Forall₂ R xs mid ∧ StablePerm key mid ys

/-- What is rearranged after a change that keeps keys can be rearranged before it. -/
theorem Signature.StablePerm.exists_of_map {f : α → β} (hf : ∀ x, key' (f x) = key x)
    {xs ys : List α} (h : StablePerm key' (xs.map f) (ys.map f)) :
    ∃ mid, xs.map f = mid.map f ∧ StablePerm key mid ys := by
  induction xs generalizing ys with
  | nil =>
    cases ys with
    | nil => exact ⟨[], rfl, .refl key []⟩
    | cons y ys => simpa using h.mem_iff (x := f y)
  | cons x xs ih =>
    have hx := h (key x)
    have hfilter : (ys.filter fun y => decide (key y = key x)).map f =
        f x :: (xs.filter fun y => decide (key y = key x)).map f := by
      simpa [entriesOf, List.filter_map, Function.comp_def, hf] using hx.symm
    obtain ⟨y, rest, hy, hyx, -⟩ := List.map_eq_cons_iff.mp hfilter
    obtain ⟨front, back, rfl, hfront, hkey, -⟩ := List.filter_eq_cons_iff.mp hy
    have hkey' : key y = key x := by simpa using hkey
    have hfront' : ∀ z ∈ front, key z ≠ key y := fun z hz => by
      simpa [hkey'] using hfront z hz
    have hmid : StablePerm key (front ++ y :: back) (y :: (front ++ back)) :=
      .middle hfront' back
    have htail : StablePerm key' (xs.map f) ((front ++ back).map f) := by
      have ht := h.trans (hmid.map hf)
      rw [List.map_cons, List.map_cons, hyx] at ht
      exact StablePerm.cons_iff.mp ht
    obtain ⟨mid, hm, hs⟩ := ih htail
    exact ⟨y :: mid, by rw [List.map_cons, List.map_cons, hyx, hm],
      (StablePerm.cons_iff.mpr hs).trans hmid.symm⟩

/-- Entries are related one by one when a change makes them equal one by one. -/
theorem forall₂_iff_map_eq {R : α → α → Prop} {f : α → β} {xs ys : List α}
    (hR : ∀ x ∈ xs, ∀ y, R x y ↔ f x = f y) : List.Forall₂ R xs ys ↔ xs.map f = ys.map f := by
  induction xs generalizing ys with
  | nil => simp
  | cons x xs ih =>
    obtain ⟨hx, hxs⟩ := List.forall_mem_cons.mp hR
    cases ys with
    | nil => simp
    | cons y ys => simp [hx y, ih hxs]

/-- Siblings that a change makes equal when they are related are related when they are sorted
alike after the change. -/
theorem siblings_iff {R : α → α → Prop} {f : α → α} (hf : ∀ x, key (f x) = key x)
    {xs ys : List α} (hR : ∀ x ∈ xs, ∀ y, R x y ↔ f x = f y) :
    Siblings R key xs ys ↔ sortByKey key (xs.map f) = sortByKey key (ys.map f) := by
  rw [sortByKey_eq_iff]
  constructor
  · rintro ⟨mid, hm, hs⟩
    rw [(forall₂_iff_map_eq hR).mp hm]
    exact hs.map hf
  · intro h
    obtain ⟨mid, hm, hs⟩ := h.exists_of_map hf
    exact ⟨mid, (forall₂_iff_map_eq hR).mpr hm, hs⟩

end Siblings

mutual

/-- A value with the members of input objects in it rearranged. -/
inductive Value.Rearranged : Value → Value → Prop
  /-- A value may stay as it is. -/
  | same (v : Value) : Value.Rearranged v v
  /-- The items of a list stay in order. -/
  | list {items items' : List Value} (each : List.Forall₂ Value.Rearranged items items') :
    Value.Rearranged (.list items) (.list items')
  /-- The members of an input object may be rearranged. -/
  | object {members mid members' : List (String × Value)}
    (each : List.Forall₂ Value.MemberRearranged members mid)
    (stable : StablePerm (fun m => Key.ofName m.1) mid members') :
    Value.Rearranged (.object members) (.object members')

/-- A member of an input object with its value rearranged. -/
inductive Value.MemberRearranged : String × Value → String × Value → Prop
  /-- The name stays. -/
  | intro {name : String} {v w : Value} (h : v.Rearranged w) :
    Value.MemberRearranged (name, v) (name, w)

end

/-- An argument with its value rearranged. -/
structure Argument.Rearranged (a b : Argument) : Prop where
  /-- The name stays. -/
  name : a.name = b.name
  /-- The value may be rearranged. -/
  value : a.value.Rearranged b.value

/-- A directive with its arguments rearranged. -/
structure Directive.Rearranged (d e : Directive) : Prop where
  /-- The name stays. -/
  name : d.name = e.name
  /-- The arguments may be rearranged. -/
  arguments : Siblings Argument.Rearranged (fun a => Key.ofName a.name) d.arguments e.arguments

/-- Directives rearranged. -/
def Directive.ListRearranged : List Directive → List Directive → Prop :=
  Siblings Directive.Rearranged fun d => Key.ofName d.name

/-- A variable with its default and its directives rearranged. -/
structure VariableDefinition.Rearranged (v w : VariableDefinition) : Prop where
  /-- The name stays. -/
  name : v.name = w.name
  /-- The type stays. -/
  type : v.type = w.type
  /-- The default may be rearranged. -/
  defaultValue : Option.Rel Value.Rearranged v.defaultValue w.defaultValue
  /-- The directives may be rearranged. -/
  directives : Directive.ListRearranged v.directives w.directives

/-- A field with its arguments and its directives rearranged. -/
structure Field.Rearranged (f f' : Field) : Prop where
  /-- The alias stays. -/
  aliasName : f.aliasName = f'.aliasName
  /-- The name stays. -/
  name : f.name = f'.name
  /-- The arguments may be rearranged. -/
  arguments : Siblings Argument.Rearranged (fun a => Key.ofName a.name) f.arguments f'.arguments
  /-- The directives may be rearranged. -/
  directives : Directive.ListRearranged f.directives f'.directives

/-- The use of a fragment with its directives rearranged. -/
structure Spread.Rearranged (s t : Spread) : Prop where
  /-- The name stays. -/
  name : s.name = t.name
  /-- The directives may be rearranged. -/
  directives : Directive.ListRearranged s.directives t.directives

/-- The head of an inline fragment with its directives rearranged. -/
structure InlineHead.Rearranged (head head' : InlineHead) : Prop where
  /-- The type stays. -/
  typeCondition : head.typeCondition = head'.typeCondition
  /-- The directives may be rearranged. -/
  directives : Directive.ListRearranged head.directives head'.directives

/-- A selection with everything in it rearranged, at any depth. -/
inductive Selection.Rearranged : Selection → Selection → Prop
  /-- A field stays one without selection set. -/
  | leaf {f f' : Field} (h : f.Rearranged f') : Selection.Rearranged (.leaf f) (.leaf f')
  /-- The selection set of a field may be rearranged. -/
  | nested {f f' : Field} {set mid set' : List Selection} (h : f.Rearranged f')
    (each : List.Forall₂ Selection.Rearranged set mid)
    (stable : StablePerm selectionKey mid set') :
    Selection.Rearranged (.nested f set) (.nested f' set')
  /-- The use of a fragment stays one. -/
  | spread {s s' : Spread} (h : s.Rearranged s') : Selection.Rearranged (.spread s) (.spread s')
  /-- The selection set of an inline fragment may be rearranged. -/
  | inline {head head' : InlineHead} {set mid set' : List Selection} (h : head.Rearranged head')
    (each : List.Forall₂ Selection.Rearranged set mid)
    (stable : StablePerm selectionKey mid set') :
    Selection.Rearranged (.inline head set) (.inline head' set')

/-- An operation with everything in it rearranged. -/
structure Operation.Rearranged (op op' : Operation) : Prop where
  /-- The kind stays. -/
  kind : op.kind = op'.kind
  /-- The name stays. -/
  name : op.name = op'.name
  /-- The variables may be rearranged. -/
  variableDefinitions : Siblings VariableDefinition.Rearranged (fun v => Key.ofName v.name)
    op.variableDefinitions op'.variableDefinitions
  /-- The directives may be rearranged. -/
  directives : Directive.ListRearranged op.directives op'.directives
  /-- The selections may be rearranged. -/
  selections : Siblings Selection.Rearranged selectionKey op.selections op'.selections

/-- A fragment with everything in it rearranged. -/
structure Fragment.Rearranged (f f' : Fragment) : Prop where
  /-- The name stays. -/
  name : f.name = f'.name
  /-- The type stays. -/
  typeCondition : f.typeCondition = f'.typeCondition
  /-- The directives may be rearranged. -/
  directives : Directive.ListRearranged f.directives f'.directives
  /-- The selections may be rearranged. -/
  selections : Siblings Selection.Rearranged selectionKey f.selections f'.selections

/-- A definition with everything in it rearranged. -/
def Definition.Rearranged : Definition → Definition → Prop
  | .operation op, .operation op' => op.Rearranged op'
  | .fragment f, .fragment f' => f.Rearranged f'
  | _, _ => False

/-- A document with everything in it rearranged. -/
def Document.Rearranged (a b : Document) : Prop :=
  Siblings Definition.Rearranged definitionKey a.definitions b.definitions

theorem Value.rearranged_list_iff {items items' : List Value} :
    (Value.list items).Rearranged (.list items') ↔ List.Forall₂ Value.Rearranged items items' := by
  constructor
  · intro h
    cases h with
    | same => exact List.forall₂_same.mpr fun v _ => .same v
    | list each => exact each
  · exact .list

theorem Value.rearranged_object_iff {members members' : List (String × Value)} :
    (Value.object members).Rearranged (.object members') ↔
      Siblings Value.MemberRearranged (fun m => Key.ofName m.1) members members' := by
  constructor
  · intro h
    cases h with
    | same => exact ⟨members, List.forall₂_same.mpr fun m _ => .intro (.same m.2), .refl _ _⟩
    | object each stable => exact ⟨_, each, stable⟩
  · rintro ⟨mid, each, stable⟩
    exact .object each stable

theorem Value.memberRearranged_iff {m m' : String × Value} :
    Value.MemberRearranged m m' ↔ m.1 = m'.1 ∧ m.2.Rearranged m'.2 := by
  constructor
  · rintro ⟨h⟩
    exact ⟨rfl, h⟩
  · obtain ⟨name, v⟩ := m
    obtain ⟨name', v'⟩ := m'
    rintro ⟨rfl, h⟩
    exact .intro h

/-- Values are rearrangements of each other when they are in order alike. -/
theorem Value.rearranged_iff {v w : Value} : v.Rearranged w ↔ v.sorted = w.sorted := by
  induction v generalizing w with
  | list items ih =>
    cases w with
    | list items' =>
      rw [Value.rearranged_list_iff, forall₂_iff_map_eq fun v hv w => ih v hv, Value.sorted_list,
        Value.sorted_list, Value.list.injEq]
    | _ =>
      constructor
      · intro h
        cases h
      · intro h
        rw [Value.sorted_list] at h
        cases h
  | object members ih =>
    cases w with
    | object members' =>
      rw [Value.rearranged_object_iff, Value.sorted_object, Value.sorted_object,
        Value.object.injEq]
      refine siblings_iff (f := fun m : String × Value => (m.1, m.2.sorted)) (fun _ => rfl)
        fun m hm m' => ?_
      rw [Value.memberRearranged_iff, ih m hm, Prod.mk.injEq]
    | _ =>
      constructor
      · intro h
        cases h
      · intro h
        rw [Value.sorted_object] at h
        cases h
  | _ =>
    constructor
    · intro h
      cases h
      rfl
    · intro h
      cases w with
      | list items' =>
        rw [Value.sorted_list] at h
        cases h
      | object members' =>
        rw [Value.sorted_object] at h
        cases h
      | _ => cases h <;> exact .same _

theorem Argument.rearranged_iff {a b : Argument} :
    a.Rearranged b ↔ a.map Value.sorted = b.map Value.sorted := by
  cases a
  cases b
  simp only [Argument.map, Argument.mk.injEq, ← Value.rearranged_iff]
  exact ⟨fun h => ⟨h.name, h.value⟩, fun h => ⟨h.1, h.2⟩⟩

theorem Argument.listRearranged_iff {as bs : List Argument} :
    Siblings Argument.Rearranged (fun a => Key.ofName a.name) as bs ↔
      Argument.sortedList as = Argument.sortedList bs :=
  siblings_iff (f := Argument.map Value.sorted) (fun _ => rfl) fun _ _ _ =>
    Argument.rearranged_iff

theorem Directive.rearranged_iff {d e : Directive} : d.Rearranged e ↔ d.sorted = e.sorted := by
  cases d
  cases e
  simp only [Directive.sorted, Directive.mk.injEq, ← Argument.listRearranged_iff]
  exact ⟨fun h => ⟨h.name, h.arguments⟩, fun h => ⟨h.1, h.2⟩⟩

theorem Directive.listRearranged_iff {ds es : List Directive} :
    Directive.ListRearranged ds es ↔ Directive.sortedList ds = Directive.sortedList es :=
  siblings_iff (f := Directive.sorted) (fun _ => rfl) fun _ _ _ => Directive.rearranged_iff

theorem VariableDefinition.rearranged_iff {v w : VariableDefinition} :
    v.Rearranged w ↔ v.sorted = w.sorted := by
  cases v with
  | mk name type defaultValue directives =>
  cases w with
  | mk name' type' defaultValue' directives' =>
  have hd : Option.Rel Value.Rearranged defaultValue defaultValue' ↔
      defaultValue.map Value.sorted = defaultValue'.map Value.sorted := by
    cases defaultValue <;> cases defaultValue' <;> simp [Value.rearranged_iff]
  simp only [VariableDefinition.sorted, VariableDefinition.mk.injEq, ← hd,
    ← Directive.listRearranged_iff]
  exact ⟨fun h => ⟨h.name, h.type, h.defaultValue, h.directives⟩,
    fun h => ⟨h.1, h.2.1, h.2.2.1, h.2.2.2⟩⟩

theorem Field.rearranged_iff {f f' : Field} : f.Rearranged f' ↔ f.sorted = f'.sorted := by
  cases f
  cases f'
  simp only [Field.sorted, Field.mk.injEq, ← Argument.listRearranged_iff,
    ← Directive.listRearranged_iff]
  exact ⟨fun h => ⟨h.aliasName, h.name, h.arguments, h.directives⟩,
    fun h => ⟨h.1, h.2.1, h.2.2.1, h.2.2.2⟩⟩

theorem Spread.rearranged_iff {s t : Spread} : s.Rearranged t ↔ s.sorted = t.sorted := by
  cases s
  cases t
  simp only [Spread.sorted, Spread.mk.injEq, ← Directive.listRearranged_iff]
  exact ⟨fun h => ⟨h.name, h.directives⟩, fun h => ⟨h.1, h.2⟩⟩

theorem InlineHead.rearranged_iff {head head' : InlineHead} :
    head.Rearranged head' ↔ head.sorted = head'.sorted := by
  cases head
  cases head'
  simp only [InlineHead.sorted, InlineHead.mk.injEq, ← Directive.listRearranged_iff]
  exact ⟨fun h => ⟨h.typeCondition, h.directives⟩, fun h => ⟨h.1, h.2⟩⟩

theorem Selection.rearranged_nested_iff {f f' : Field} {set set' : List Selection} :
    (Selection.nested f set).Rearranged (.nested f' set') ↔
      f.Rearranged f' ∧ Siblings Selection.Rearranged selectionKey set set' := by
  constructor
  · intro h
    cases h with
    | nested h each stable => exact ⟨h, _, each, stable⟩
  · rintro ⟨h, mid, each, stable⟩
    exact .nested h each stable

theorem Selection.rearranged_inline_iff {head head' : InlineHead} {set set' : List Selection} :
    (Selection.inline head set).Rearranged (.inline head' set') ↔
      head.Rearranged head' ∧ Siblings Selection.Rearranged selectionKey set set' := by
  constructor
  · intro h
    cases h with
    | inline h each stable => exact ⟨h, _, each, stable⟩
  · rintro ⟨h, mid, each, stable⟩
    exact .inline h each stable

/-- Selections are rearrangements of each other when they are in order alike. -/
theorem Selection.rearranged_iff {s t : Selection} : s.Rearranged t ↔ s.sorted = t.sorted := by
  induction s generalizing t with
  | leaf f =>
    cases t with
    | leaf f' =>
      rw [Selection.sorted, Selection.sorted, Selection.leaf.injEq, ← Field.rearranged_iff]
      refine ⟨fun h => ?_, .leaf⟩
      cases h with
      | leaf h => exact h
    | _ =>
      constructor
      · intro h
        cases h
      · intro h
        simp [Selection.sorted] at h
  | nested f set ih =>
    cases t with
    | nested f' set' =>
      rw [Selection.rearranged_nested_iff, Field.rearranged_iff, Selection.sorted,
        Selection.sorted, Selection.nested.injEq, Selection.sortedEach_eq_map,
        Selection.sortedEach_eq_map,
        siblings_iff Selection.selectionKey_sorted fun s hs t => ih s hs]
    | _ =>
      constructor
      · intro h
        cases h
      · intro h
        simp [Selection.sorted] at h
  | spread s =>
    cases t with
    | spread s' =>
      rw [Selection.sorted, Selection.sorted, Selection.spread.injEq, ← Spread.rearranged_iff]
      refine ⟨fun h => ?_, .spread⟩
      cases h with
      | spread h => exact h
    | _ =>
      constructor
      · intro h
        cases h
      · intro h
        simp [Selection.sorted] at h
  | inline head set ih =>
    cases t with
    | inline head' set' =>
      rw [Selection.rearranged_inline_iff, InlineHead.rearranged_iff, Selection.sorted,
        Selection.sorted, Selection.inline.injEq, Selection.sortedEach_eq_map,
        Selection.sortedEach_eq_map,
        siblings_iff Selection.selectionKey_sorted fun s hs t => ih s hs]
    | _ =>
      constructor
      · intro h
        cases h
      · intro h
        simp [Selection.sorted] at h

theorem Selection.listRearranged_iff {set set' : List Selection} :
    Siblings Selection.Rearranged selectionKey set set' ↔
      Selection.sortedList set = Selection.sortedList set' :=
  siblings_iff Selection.selectionKey_sorted fun _ _ _ => Selection.rearranged_iff

theorem Operation.rearranged_iff {op op' : Operation} :
    op.Rearranged op' ↔ op.sorted = op'.sorted := by
  cases op
  cases op'
  have hv : ∀ vs ws : List VariableDefinition,
      Siblings VariableDefinition.Rearranged (fun v => Key.ofName v.name) vs ws ↔
        VariableDefinition.sortedList vs = VariableDefinition.sortedList ws :=
    fun _ _ => siblings_iff (f := VariableDefinition.sorted) (fun _ => rfl) fun _ _ _ =>
      VariableDefinition.rearranged_iff
  simp only [Operation.sorted, Operation.mk.injEq, ← hv, ← Directive.listRearranged_iff,
    ← Selection.listRearranged_iff]
  exact ⟨fun h => ⟨h.kind, h.name, h.variableDefinitions, h.directives, h.selections⟩,
    fun h => ⟨h.1, h.2.1, h.2.2.1, h.2.2.2.1, h.2.2.2.2⟩⟩

theorem Fragment.rearranged_iff {f f' : Fragment} : f.Rearranged f' ↔ f.sorted = f'.sorted := by
  cases f
  cases f'
  simp only [Fragment.sorted, Fragment.mk.injEq, ← Directive.listRearranged_iff,
    ← Selection.listRearranged_iff]
  exact ⟨fun h => ⟨h.name, h.typeCondition, h.directives, h.selections⟩,
    fun h => ⟨h.1, h.2.1, h.2.2.1, h.2.2.2⟩⟩

theorem Definition.rearranged_iff {x y : Definition} : x.Rearranged y ↔ x.sorted = y.sorted := by
  cases x <;> cases y <;>
    simp [Definition.Rearranged, Definition.sorted, Operation.rearranged_iff,
      Fragment.rearranged_iff]

/-- Documents are rearrangements of each other exactly when they have the same canonical
order. -/
theorem Document.rearranged_iff {a b : Document} : a.Rearranged b ↔ sort a = sort b := by
  have hd : sort a = sort b ↔ (sort a).definitions = (sort b).definitions :=
    ⟨congrArg Document.definitions, congrArg Document.mk⟩
  rw [hd, definitions_sort, definitions_sort]
  exact siblings_iff Definition.definitionKey_sorted fun _ _ _ => Definition.rearranged_iff

end Safelist
