import Safelist.Proofs.Document.Reachability
import Safelist.Proofs.Document.WellFormed
import Safelist.Proofs.Outcome

/-!
# Which documents can be registered

The check lets exactly those documents through that hold one operation, fragments
of different names, no empty selection set and every fragment that the operation
uses. What it says does not depend on any value in the document.
-/

namespace Safelist

/-- No way leads to an empty set from a set that is filled, if this is so for its selections. -/
theorem Selection.setEmptyPath?_eq_none_iff_of {set : List Selection}
    (hs : ∀ s ∈ set, s.emptyPath? = none ↔ s.Filled) :
    Selection.setEmptyPath? set = none ↔ FilledSet set := by
  rw [Selection.setEmptyPath?, Selection.firstEmptyPath?_eq_findSome?]
  constructor
  · intro h
    split at h
    · cases h
    · rename_i hne
      rw [List.findSome?_eq_none_iff] at h
      exact ⟨by simpa using hne, fun s hm => (hs s hm).mp (h s hm)⟩
  · rintro ⟨hne, hf⟩
    rw [if_neg (by simpa using hne), List.findSome?_eq_none_iff]
    exact fun s hm => (hs s hm).mpr (hf s hm)

theorem Selection.emptyPath?_eq_none_iff (s : Selection) : s.emptyPath? = none ↔ s.Filled := by
  induction s with
  | leaf f => exact ⟨fun _ => .leaf f, fun _ => rfl⟩
  | nested f set ih =>
    have hp : (Selection.nested f set).emptyPath? =
        (Selection.setEmptyPath? set).map (f.responseKey :: ·) := rfl
    rw [hp, Option.map_eq_none_iff, Selection.setEmptyPath?_eq_none_iff_of ih]
    constructor
    · exact fun h => .nested f h.ne_nil h.filled
    · intro h
      cases h with
      | nested _ hne hs => exact ⟨hne, hs⟩
  | spread s => exact ⟨fun _ => .spread s, fun _ => rfl⟩
  | inline head set ih =>
    have hp : (Selection.inline head set).emptyPath? =
        (Selection.setEmptyPath? set).map (head.label :: ·) := rfl
    rw [hp, Option.map_eq_none_iff, Selection.setEmptyPath?_eq_none_iff_of ih]
    constructor
    · exact fun h => .inline head h.ne_nil h.filled
    · intro h
      cases h with
      | inline _ hne hs => exact ⟨hne, hs⟩

/-- No way leads to an empty selection set exactly when the set is filled. -/
theorem Selection.setEmptyPath?_eq_none_iff (set : List Selection) :
    Selection.setEmptyPath? set = none ↔ FilledSet set :=
  Selection.setEmptyPath?_eq_none_iff_of fun s _ => s.emptyPath?_eq_none_iff

theorem checkSelections_eq_ok_iff {owner : String} {set : List Selection} :
    checkSelections owner set = .ok () ↔ FilledSet set := by
  rw [← Selection.setEmptyPath?_eq_none_iff, checkSelections]
  cases Selection.setEmptyPath? set <;> simp

section Fragments

variable {seen : List String} {f : Fragment} {rest : List Fragment}

theorem checkFragments_cons_of_mem (h : f.name ∈ seen) :
    checkFragments seen (f :: rest) = .error (.duplicateFragment f.name) := by
  have hc : seen.contains f.name = true := by simpa using h
  rw [checkFragments, if_pos hc]
  rfl

theorem checkFragments_cons_of_not_mem (h : f.name ∉ seen) :
    checkFragments seen (f :: rest) = (checkSelections f.label f.selections >>= fun _ =>
      checkFragments (f.name :: seen) rest) := by
  have hc : ¬seen.contains f.name = true := by simpa using h
  rw [checkFragments, if_neg hc]

/-- The first fragment passes the check when its name is new and its set is filled. -/
theorem checkFragments_cons_eq_ok_iff :
    checkFragments seen (f :: rest) = .ok () ↔
      (f.name ∉ seen ∧ FilledSet f.selections) ∧ checkFragments (f.name :: seen) rest = .ok () := by
  by_cases hm : f.name ∈ seen
  · simp [checkFragments_cons_of_mem, hm]
  · rw [checkFragments_cons_of_not_mem hm, check_bind_eq_ok_iff, checkSelections_eq_ok_iff]
    simp [hm]

/-- Fragments pass the check when their names are new and differ and their sets are filled. -/
theorem checkFragments_eq_ok_iff {fs : List Fragment} :
    checkFragments seen fs = .ok () ↔
      (fs.map Fragment.name).Nodup ∧ (∀ f ∈ fs, f.name ∉ seen) ∧
        ∀ f ∈ fs, FilledSet f.selections := by
  induction fs generalizing seen with
  | nil => simp [checkFragments]
  | cons f rest ih =>
    rw [checkFragments_cons_eq_ok_iff, ih, List.map_cons, List.nodup_cons, List.forall_mem_cons,
      List.forall_mem_cons]
    constructor
    · rintro ⟨⟨hf, hfilled⟩, hnd, hnew, hrest⟩
      refine ⟨⟨fun hm => ?_, hnd⟩, ⟨hf, fun g hg hs => hnew g hg (List.mem_cons_of_mem _ hs)⟩,
        hfilled, hrest⟩
      obtain ⟨g, hg, hgf⟩ := List.mem_map.mp hm
      exact hnew g hg (hgf ▸ List.mem_cons_self)
    · rintro ⟨⟨hm, hnd⟩, ⟨hf, hnew⟩, hfilled, hrest⟩
      refine ⟨⟨hf, hfilled⟩, hnd, fun g hg hs => ?_, hrest⟩
      obtain hgf | hs := List.mem_cons.mp hs
      · exact hm (hgf ▸ List.mem_map_of_mem hg)
      · exact hnew g hg hs

end Fragments

namespace Document

variable {d : Document}

/-- The operations of a document are the definitions that are operations. -/
theorem mem_operations_iff {op : Operation} :
    op ∈ d.operations ↔ Definition.operation op ∈ d.definitions := by
  rw [operations, List.mem_filterMap]
  constructor
  · rintro ⟨x, hx, h⟩
    cases x with
    | operation op' => exact Option.some.inj h ▸ hx
    | fragment f => cases h
  · exact fun h => ⟨_, h, rfl⟩

/-- The fragments of a document are the definitions that are fragments. -/
theorem mem_fragments_iff {f : Fragment} :
    f ∈ d.fragments ↔ Definition.fragment f ∈ d.definitions := by
  rw [fragments, List.mem_filterMap]
  constructor
  · rintro ⟨x, hx, h⟩
    cases x with
    | operation op => cases h
    | fragment f' => exact Option.some.inj h ▸ hx
  · exact fun h => ⟨_, h, rfl⟩

/-- What holds of the selection sets of definitions holds of those of operations and of those of
fragments. -/
theorem forall_selections_iff {p : List Selection → Prop} :
    (∀ x ∈ d.definitions, p x.selections) ↔
      (∀ op ∈ d.operations, p op.selections) ∧ ∀ f ∈ d.fragments, p f.selections := by
  simp only [mem_operations_iff, mem_fragments_iff]
  refine ⟨fun h => ⟨fun op => h (.operation op), fun f => h (.fragment f)⟩, ?_⟩
  rintro ⟨hops, hfs⟩ x hx
  cases x with
  | operation op => exact hops op hx
  | fragment f => exact hfs f hx

end Document

/-- A document that can be registered, and the operation that it registers. -/
structure Document.Registers (d : Document) (op : Operation) : Prop where
  /-- The operation is the only one. -/
  operations : d.operations = [op]
  /-- Fragments differ in their names. -/
  nodup : (d.fragments.map Fragment.name).Nodup
  /-- No selection set of a fragment is empty. -/
  fragments : ∀ f ∈ d.fragments, FilledSet f.selections
  /-- No selection set of the operation is empty. -/
  selections : FilledSet op.selections
  /-- Every fragment that is used is there. -/
  used : ∀ name, Reachable d.fragments op.selections name →
    (fragmentNamed? d.fragments name).isSome

theorem Document.soleOperation_eq_ok_iff {d : Document} {op : Operation} :
    d.soleOperation = .ok op ↔ d.operations = [op] := by
  unfold soleOperation
  split <;> simp_all

/-- The check lets exactly those documents through that can be registered. -/
theorem Document.check_eq_ok_iff {d : Document} : d.check = .ok () ↔ ∃ op, d.Registers op := by
  unfold check
  rw [bind_eq_ok_iff]
  refine exists_congr fun op => ?_
  rw [check_bind_eq_ok_iff, check_bind_eq_ok_iff, soleOperation_eq_ok_iff,
    checkFragments_eq_ok_iff, checkSelections_eq_ok_iff]
  have hm : (reach d.fragments op.selections).missing = [] ↔
      ∀ name, Reachable d.fragments op.selections name →
        (fragmentNamed? d.fragments name).isSome := by
    simp only [List.eq_nil_iff_forall_not_mem, mem_missing_reach, not_and,
      Option.isSome_iff_ne_none, ne_eq]
  constructor
  · rintro ⟨hop, ⟨hnd, -, hfs⟩, hset, hmissing⟩
    refine ⟨hop, hnd, hfs, hset, hm.mp ?_⟩
    split at hmissing
    · assumption
    · cases hmissing
  · rintro ⟨hop, hnd, hfs, hset, hused⟩
    refine ⟨hop, ⟨hnd, by simp, hfs⟩, hset, ?_⟩
    rw [hm.mpr hused]
    rfl

section Values

variable (g : Value → Value)

/-- What is found first is the same where it is found in the same way. -/
theorem findSome?_congr_left {α β : Type} {f f' : α → Option β} {xs : List α}
    (h : ∀ x ∈ xs, f x = f' x) : xs.findSome? f = xs.findSome? f' := by
  have hm : (xs.map f).findSome? id = (xs.map f').findSome? id :=
    congrArg _ (List.map_congr_left h)
  simpa [List.findSome?_map] using hm

@[simp] theorem Selection.emptyPath?_map (s : Selection) :
    (s.map g id).emptyPath? = s.emptyPath? := by
  induction s with
  | leaf f => rfl
  | nested f set ih =>
    simp only [Selection.map, Selection.emptyPath?, Selection.mapSet_eq_map,
      Selection.firstEmptyPath?_eq_findSome?, List.findSome?_map, List.isEmpty_map]
    rw [← findSome?_congr_left ih]
    rfl
  | spread s => rfl
  | inline head set ih =>
    simp only [Selection.map, Selection.emptyPath?, Selection.mapSet_eq_map,
      Selection.firstEmptyPath?_eq_findSome?, List.findSome?_map, List.isEmpty_map]
    rw [← findSome?_congr_left ih]
    rfl

@[simp] theorem Selection.setEmptyPath?_map (set : List Selection) :
    Selection.setEmptyPath? (set.map (Selection.map g id)) = Selection.setEmptyPath? set := by
  simp [Selection.setEmptyPath?, List.findSome?_map, Function.comp_def]

@[simp] theorem checkSelections_map (owner : String) (set : List Selection) :
    checkSelections owner (set.map (Selection.map g id)) = checkSelections owner set := by
  simp [checkSelections]

@[simp] theorem checkFragments_map (seen : List String) (fs : List Fragment) :
    checkFragments seen (fs.map (Fragment.map g id)) = checkFragments seen fs := by
  induction fs generalizing seen with
  | nil => rfl
  | cons f rest ih =>
    rw [List.map_cons, checkFragments, checkFragments, ih]
    simp only [Fragment.map, Fragment.label, checkSelections_map]

theorem Document.soleOperation_map (d : Document) :
    (d.map g id).soleOperation = d.soleOperation.map (Operation.map g id) := by
  unfold soleOperation
  rw [operations_map]
  cases d.operations with
  | nil => rfl
  | cons op rest => cases rest <;> simp [Except.map]

/-- What the check says does not depend on values. -/
theorem Document.check_map (d : Document) : (d.map g id).check = d.check := by
  unfold check
  rw [soleOperation_map, fragments_map, checkFragments_map]
  cases d.soleOperation with
  | error e => rfl
  | ok op =>
    have hl : (op.map g id).label = op.label := rfl
    have hs : (op.map g id).selections = op.selections.map (Selection.map g id) := rfl
    simp only [Except.map, bind, Except.bind, hl, hs, checkSelections_map, reach_map, Reach.map]

end Values

end Safelist
