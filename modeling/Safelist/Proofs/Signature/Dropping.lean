import Safelist.Proofs.Document.Reachability
import Safelist.Proofs.Signature.Literals

/-!
# Dropping what is not used

What an operation uses depends neither on values and aliases nor on the order of
anything in its document, except that of fragments of one name, and a stable
rearrangement keeps that. So definitions that are not used can be dropped before
or after a document is changed value by value or brought into order.
-/

namespace Safelist

open Signature

namespace Signature

/-- Whether a definition is kept: of operations those of a name, of fragments those used. -/
def isKept (name : String) (used : List String) : Definition → Bool
  | .operation op => isNamed name op
  | .fragment f => used.contains f.name

@[simp] theorem isKept_map (g : Value → Value) (h : Option String → Option String) (name : String)
    (used : List String) (x : Definition) : isKept name used (x.map g h) = isKept name used x := by
  cases x <;> rfl

@[simp] theorem isKept_sorted (name : String) (used : List String) (x : Definition) :
    isKept name used x.sorted = isKept name used x := by
  cases x <;> rfl

/-- Only which names are used matters. -/
theorem isKept_congr (name : String) {used used' : List String}
    (h : ∀ n, n ∈ used ↔ n ∈ used') : isKept name used = isKept name used' := by
  funext x
  cases x with
  | operation op => rfl
  | fragment f =>
    rw [isKept, isKept, Bool.eq_iff_iff]
    simpa using h f.name

theorem dropUnused_of_none {name : String} {d : Document}
    (h : d.operations.find? (isNamed name) = none) : dropUnused name d = d := by
  rw [dropUnused, h]

theorem dropUnused_of_some {name : String} {d : Document} {op : Operation}
    (h : d.operations.find? (isNamed name) = some op) :
    dropUnused name d =
      ⟨d.definitions.filter (isKept name (reach d.fragments op.selections).names)⟩ := by
  rw [dropUnused, h]
  simp only
  congr 2

/-- Values and aliases can be changed before what is not used is dropped. -/
theorem dropUnused_map (g : Value → Value) (h : Option String → Option String) (name : String)
    (d : Document) : dropUnused name (d.map g h) = (dropUnused name d).map g h := by
  have hfind : (d.map g h).operations.find? (isNamed name) =
      (d.operations.find? (isNamed name)).map (Operation.map g h) := by
    rw [Document.operations_map, List.find?_map]
    rfl
  cases hop : d.operations.find? (isNamed name) with
  | none => rw [dropUnused_of_none hop, dropUnused_of_none (by rw [hfind, hop]; rfl)]
  | some op =>
    rw [dropUnused_of_some hop, dropUnused_of_some (by rw [hfind, hop]; rfl)]
    have hr : (reach (d.map g h).fragments (op.map g h).selections).names =
        (reach d.fragments op.selections).names := by
      rw [Document.fragments_map]
      simp only [Operation.map, reach_map]
      simp [Reach.map, Reach.names, Fragment.map]
    rw [hr]
    simp [Document.map, List.filter_map, Function.comp_def]

/-- The first definition of a key is the same in canonical order, with everything in it in
order. -/
theorem find?_filterMap_sort {α : Type} {pick : Definition → Option α} {change : α → α}
    {p : α → Bool} {k : Key} (hk : ∀ x, (pick x).any p = decide (definitionKey x = k))
    (hc : ∀ x : Definition, pick x.sorted = (pick x).map change) (d : Document) :
    ((sort d).definitions.filterMap pick).find? p =
      ((d.definitions.filterMap pick).find? p).map change := by
  have hs : ∀ x : Definition, (pick x.sorted).any p = (pick x).any p := by
    intro x
    rw [hk, hk, Definition.definitionKey_sorted]
  rw [List.find?_filterMap, List.find?_filterMap, definitions_sort,
    (stablePerm_sortByKey _ _).find?_eq hk, List.find?_map]
  simp only [Function.comp_def, hs]
  cases d.definitions.find? fun x => (pick x).any p with
  | none => rfl
  | some x => exact hc x

theorem find?_operations_sort (name : String) (d : Document) :
    (sort d).operations.find? (isNamed name) =
      (d.operations.find? (isNamed name)).map Operation.sorted := by
  refine find?_filterMap_sort (k := ⟨1, name⟩) (fun x => ?_) (fun x => ?_) d
  · cases x with
    | operation op =>
      cases hn : op.name <;>
        simp [Definition.operation?, definitionKey, isNamed, hn, Bool.beq_eq_decide_eq]
    | fragment f => simp [Definition.operation?, definitionKey]
  · cases x <;> rfl

theorem fragmentNamed?_sort (name : String) (d : Document) :
    fragmentNamed? (sort d).fragments name =
      (fragmentNamed? d.fragments name).map Fragment.sorted := by
  refine find?_filterMap_sort (k := ⟨0, name⟩) (fun x => ?_) (fun x => ?_) d
  · cases x with
    | operation op => cases hn : op.name <;> simp [Definition.fragment?, definitionKey, hn]
    | fragment f => simp [Definition.fragment?, definitionKey, Bool.beq_eq_decide_eq]
  · cases x <;> rfl

/-- Canonical order keeps what a selection set uses, if it keeps what each selection uses. -/
theorem mem_setUses_sortedList_of {name : String} {set : List Selection}
    (h : ∀ s ∈ set, name ∈ s.sorted.uses ↔ name ∈ s.uses) :
    name ∈ Selection.setUses (Selection.sortedList set) ↔ name ∈ Selection.setUses set := by
  simp only [Selection.sortedList, Selection.setUses_eq_flatMap, List.mem_flatMap, mem_sortByKey,
    List.mem_map, exists_exists_and_eq_and]
  exact exists_congr fun s => and_congr_right (h s)

theorem mem_uses_sorted (name : String) (s : Selection) : name ∈ s.sorted.uses ↔ name ∈ s.uses := by
  induction s with
  | leaf f => rfl
  | nested f set ih =>
    rw [Selection.sorted, Selection.sortedEach_eq_map]
    exact mem_setUses_sortedList_of ih
  | spread s => rfl
  | inline head set ih =>
    rw [Selection.sorted, Selection.sortedEach_eq_map]
    exact mem_setUses_sortedList_of ih

/-- Canonical order keeps what a selection set uses. -/
theorem mem_setUses_sortedList (name : String) (set : List Selection) :
    name ∈ Selection.setUses (Selection.sortedList set) ↔ name ∈ Selection.setUses set :=
  mem_setUses_sortedList_of fun s _ => mem_uses_sorted name s

/-- Canonical order keeps what is reachable. -/
theorem reachable_sort {d : Document} {set : List Selection} {name : String} :
    Reachable (sort d).fragments (Selection.sortedList set) name ↔
      Reachable d.fragments set name := by
  constructor
  · refine Reachable.mono (fun n hn => (mem_setUses_sortedList n set).mp hn) fun n f hf => ?_
    rw [fragmentNamed?_sort, Option.map_eq_some_iff] at hf
    obtain ⟨f', hf', rfl⟩ := hf
    exact ⟨f', hf', fun m hm => (mem_setUses_sortedList m f'.selections).mp hm⟩
  · refine Reachable.mono (fun n hn => (mem_setUses_sortedList n set).mpr hn) fun n f hf => ?_
    refine ⟨f.sorted, ?_, fun m hm => (mem_setUses_sortedList m f.selections).mpr hm⟩
    rw [fragmentNamed?_sort, hf, Option.map_some]

/-- Definitions that are not used can be dropped before a document is brought into order. -/
theorem dropUnused_sort (name : String) (d : Document) :
    dropUnused name (sort d) = sort (dropUnused name d) := by
  cases hop : d.operations.find? (isNamed name) with
  | none =>
    rw [dropUnused_of_none hop, dropUnused_of_none]
    rw [find?_operations_sort, hop, Option.map_none]
  | some op =>
    have hop' : (sort d).operations.find? (isNamed name) = some op.sorted := by
      rw [find?_operations_sort, hop, Option.map_some]
    have hnames : ∀ n, n ∈ (reach (sort d).fragments op.sorted.selections).names ↔
        n ∈ (reach d.fragments op.selections).names := by
      intro n
      rw [mem_names_reach, mem_names_reach, fragmentNamed?_sort, Option.isSome_map]
      exact and_congr_left' reachable_sort
    rw [dropUnused_of_some hop, dropUnused_of_some hop', isKept_congr name hnames]
    have hd := definitions_sort
      ⟨d.definitions.filter (isKept name (reach d.fragments op.selections).names)⟩
    refine congrArg Document.mk (.trans ?_ hd.symm)
    rw [definitions_sort, ← sortByKey_filter, List.filter_map]
    simp only [Function.comp_def, isKept_sorted]

/-- An engine signature says what the outline of what is used says. -/
theorem engineSignature_eq (name : String) (d : Document) :
    engineSignature name d = (sort (dropUnused name d).outline).print :=
  canonicalText_removeAliases_hideLiterals _

/-- Literals have no part in an engine signature. -/
theorem engineSignature_shape (name : String) (d : Document) :
    engineSignature name d.shape = engineSignature name d := by
  rw [engineSignature_eq, engineSignature_eq, Document.shape, dropUnused_map]
  exact congrArg (fun d => (sort d).print) (dropUnused name d).outline_shape

/-- The order of a document has no part in an engine signature. -/
theorem engineSignature_sort (name : String) (d : Document) :
    engineSignature name (sort d) = engineSignature name d := by
  rw [engineSignature_eq, engineSignature_eq, dropUnused_sort, ← sort_outline, sort_sort]

end Signature

end Safelist
