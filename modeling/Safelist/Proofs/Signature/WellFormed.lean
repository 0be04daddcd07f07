import Safelist.Proofs.Document.Editing
import Safelist.Proofs.Document.Registration
import Safelist.Proofs.Document.RoundTrip
import Safelist.Proofs.Signature.Literals

/-!
# Canonical texts can be read

Neither forgetting literals nor canonical order makes a document ill formed. So the
canonical text of a redacted document denotes its shape in canonical order.
-/

namespace Safelist

open Signature

/-- A selection set is filled in canonical order if its selections are. -/
theorem FilledSet.sortedList_of {set : List Selection} (hne : set ≠ [])
    (hs : ∀ s ∈ set, s.sorted.Filled) : FilledSet (Selection.sortedList set) := by
  refine ⟨by simpa [Selection.sortedList] using hne, fun t ht => ?_⟩
  obtain ⟨s, hm, rfl⟩ := List.mem_map.mp (mem_sortByKey.mp ht)
  exact hs s hm

theorem Selection.Filled.sorted {s : Selection} (h : s.Filled) : s.sorted.Filled := by
  induction s with
  | leaf f => exact .leaf f.sorted
  | nested f set ih =>
    cases h with
    | nested _ hne hs =>
      have hset := FilledSet.sortedList_of hne fun s hm => ih s hm (hs s hm)
      rw [Selection.sorted, Selection.sortedEach_eq_map]
      exact .nested f.sorted hset.ne_nil hset.filled
  | spread s => exact .spread s.sorted
  | inline head set ih =>
    cases h with
    | inline _ hne hs =>
      have hset := FilledSet.sortedList_of hne fun s hm => ih s hm (hs s hm)
      rw [Selection.sorted, Selection.sortedEach_eq_map]
      exact .inline head.sorted hset.ne_nil hset.filled

/-- Canonical order empties no selection set. -/
theorem FilledSet.sortedList {set : List Selection} (h : FilledSet set) :
    FilledSet (Selection.sortedList set) :=
  .sortedList_of h.ne_nil fun s hs => (h.filled s hs).sorted

/-- Which selection sets are filled does not depend on values. -/
theorem FilledSet.map_iff {g : Value → Value} {set : List Selection} :
    FilledSet (set.map (Selection.map g id)) ↔ FilledSet set := by
  rw [← Selection.setEmptyPath?_eq_none_iff, ← Selection.setEmptyPath?_eq_none_iff,
    Selection.setEmptyPath?_map]

/-- Canonical order misspells nothing. -/
theorem Signature.spells_canonicalOrder : canonicalOrder.Spells :=
  { Edit.spells_identity with
    value := fun {constant v} h => by
      cases v with
      | object members =>
        cases h with
        | object hn hv =>
          exact .object (fun m hm => hn m (mem_sortByKey.mp hm)) fun m hm =>
            hv m (mem_sortByKey.mp hm)
      | _ => exact h
    arguments := fun _ => (sortByKey_perm _ _).subset
    directives := fun _ => (sortByKey_perm _ _).subset
    variableDefinitions := fun _ => (sortByKey_perm _ _).subset
    selections := fun hs s hm => hs s (mem_sortByKey.mp hm)
    definitions := fun _ => (sortByKey_perm _ _).subset }

namespace Document.WellFormed

variable {d : Document}

/-- Forgetting literals keeps a document well formed. -/
theorem shape (h : d.WellFormed) : d.shape.WellFormed where
  ne_nil := by simpa [Document.shape, Document.map] using h.ne_nil
  wellSpelled := Document.wellSpelled_shape h.wellSpelled
  filled x hx := by
    obtain ⟨y, hy, rfl⟩ := List.mem_map.mp hx
    cases y with
    | operation op => exact FilledSet.map_iff.mpr (h.filled _ hy)
    | fragment f => exact FilledSet.map_iff.mpr (h.filled _ hy)

/-- Canonical order keeps a document well formed. -/
theorem sort (h : d.WellFormed) : (Signature.sort d).WellFormed where
  ne_nil := by simpa [definitions_sort] using h.ne_nil
  wellSpelled := spells_canonicalOrder.apply h.wellSpelled
  filled x hx := by
    rw [definitions_sort, mem_sortByKey] at hx
    obtain ⟨y, hy, rfl⟩ := List.mem_map.mp hx
    cases y with
    | operation op => exact (h.filled _ hy).sortedList
    | fragment f => exact (h.filled _ hy).sortedList

/-- The canonical text of a redacted document denotes its shape in canonical order. -/
theorem parse_print_sort_shape (h : d.WellFormed) :
    parse (Signature.sort d.shape).print = .ok (Signature.sort d.shape) := by
  rw [h.shape.sort.parse_print, sort_shape, plain_shape]

end Document.WellFormed

end Safelist
