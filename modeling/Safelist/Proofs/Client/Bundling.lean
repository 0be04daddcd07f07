import Safelist.Client.Bundle
import Safelist.Proofs.Document.Registration

/-!
# Bundles hold together

A bundle is the document of an operation with fragments behind it. It holds
together when nothing is used that is not there, and it is tight when nothing is
there that is not used and no fragment is empty. Adding fields in front of
selection sets and taking directives away keeps bundles tight.
-/

namespace Safelist

/-- The document of an operation with fragments behind it. -/
def Document.bundle (op : Operation) (fs : List Fragment) : Document :=
  ⟨.operation op :: fs.map Definition.fragment⟩

namespace Document

@[simp] theorem operations_bundle (op : Operation) (fs : List Fragment) :
    (bundle op fs).operations = [op] := by
  simp [bundle, operations, Definition.operation?, List.filterMap_map, Function.comp_def]

@[simp] theorem fragments_bundle (op : Operation) (fs : List Fragment) :
    (bundle op fs).fragments = fs := by
  simp [bundle, fragments, Definition.fragment?, List.filterMap_cons, List.filterMap_map,
    Function.comp_def]

/-- A bundle has one operation and its fragments. -/
theorem bundle_inj {op op' : Operation} {fs fs' : List Fragment}
    (h : bundle op fs = bundle op' fs') : op = op' ∧ fs = fs' := by
  have hop := congrArg operations h
  have hfs := congrArg fragments h
  simp only [operations_bundle, fragments_bundle, List.cons.injEq, and_true] at hop hfs
  exact ⟨hop, hfs⟩

/-- A bundle is edited part by part. -/
theorem apply_bundle {e : Edit} (he : e.definitions = id) (op : Operation) (fs : List Fragment) :
    e.apply (bundle op fs) = bundle (e.onOperation op) (fs.map e.onFragment) := by
  simp [Edit.apply, he, bundle, Edit.onDefinition]

end Document

namespace Client

variable {name : String} {order : List String} {op : Operation} {fs : List Fragment}

/-- An operation of a name and fragments in some order hold together: no selection set inside
another is empty, and every fragment that is used is there. -/
structure Coherent (name : String) (order : List String) (op : Operation)
    (fs : List Fragment) : Prop where
  /-- The operation has the name. -/
  named : op.name = some name
  /-- The fragments are in order. -/
  ordered : (fs.map Fragment.name).Sublist order
  /-- No selection set inside the operation's is empty. -/
  filled : ∀ s ∈ op.selections, s.Filled
  /-- No selection set inside a fragment's is empty. -/
  fragmentsFilled : ∀ f ∈ fs, ∀ s ∈ f.selections, s.Filled
  /-- What the operation uses is there. -/
  known : Selection.setUses op.selections ⊆ fs.map Fragment.name
  /-- What a fragment uses is there. -/
  fragmentsKnown : ∀ f ∈ fs, Selection.setUses f.selections ⊆ fs.map Fragment.name

/-- An operation and fragments that hold together, all of them used and none of them empty. -/
structure Tight (name : String) (order : List String) (op : Operation)
    (fs : List Fragment) : Prop extends Coherent name order op fs where
  /-- Every fragment is used. -/
  used : ∀ f ∈ fs, Reachable fs op.selections f.name
  /-- No fragment is empty. -/
  ne_nil : ∀ f ∈ fs, f.selections ≠ []

/-- Whatever is reachable is there. -/
theorem Coherent.mem_of_reachable (h : Coherent name order op fs) {n : String}
    (hn : Reachable fs op.selections n) : n ∈ fs.map Fragment.name := by
  cases hn with
  | direct hu => exact h.known hu
  | through _ hf hu => exact h.fragmentsKnown _ (List.mem_of_find?_eq_some hf) hu

theorem Coherent.nodup (h : Coherent name order op fs) (ho : order.Nodup) :
    (fs.map Fragment.name).Nodup :=
  h.ordered.nodup ho

/-- A tight bundle can be registered unless its operation is empty. -/
theorem Tight.registers (h : Tight name order op fs) (ho : order.Nodup)
    (hne : op.selections ≠ []) : (Document.bundle op fs).Registers op where
  operations := Document.operations_bundle op fs
  nodup := by simpa using h.nodup ho
  fragments := by simpa using fun f hf => ⟨h.ne_nil f hf, h.fragmentsFilled f hf⟩
  selections := ⟨hne, h.filled⟩
  used n hn := by
    rw [Document.fragments_bundle] at hn ⊢
    exact isSome_fragmentNamed?_iff.mpr (h.mem_of_reachable hn)

/-- What is reachable is reachable among the fragments that are. -/
theorem reachable_filter {set : List Selection} {n : String} (h : Reachable fs set n)
    (hn : (fs.map Fragment.name).Nodup) {keep : Fragment → Bool}
    (hk : ∀ f ∈ fs, Reachable fs set f.name → keep f = true) :
    Reachable (fs.filter keep) set n := by
  induction h with
  | direct hu => exact .direct hu
  | @through n used f hr hf hu ih =>
    obtain ⟨hm, hname⟩ := (fragmentNamed?_eq_some_iff hn).mp hf
    refine ih.through ((fragmentNamed?_eq_some_iff ?_).mpr ⟨?_, hname⟩) hu
    · exact (List.filter_sublist.map _).nodup hn
    · exact List.mem_filter.mpr ⟨hm, hk f hm (hname ▸ hr)⟩

/-- The fragments that are used make a tight bundle, if none of them is empty or missing. -/
theorem tight_filter_reach (hname : op.name = some name) (ho : (fs.map Fragment.name).Sublist order)
    (hn : (fs.map Fragment.name).Nodup) (hop : ∀ s ∈ op.selections, s.Filled)
    (hfs : ∀ f ∈ fs, FilledSet f.selections)
    (hknown : ∀ n, Reachable fs op.selections n → n ∈ fs.map Fragment.name) :
    Tight name order op
      (fs.filter fun f => (reach fs op.selections).names.contains f.name) := by
  have hkeep : ∀ f ∈ fs, ((reach fs op.selections).names.contains f.name = true ↔
      Reachable fs op.selections f.name) := by
    intro f hf
    rw [List.contains_iff_mem, mem_names_reach, isSome_fragmentNamed?_iff]
    exact and_iff_left (List.mem_map_of_mem hf)
  have hmem : ∀ n, Reachable fs op.selections n → n ∈ (fs.filter fun f =>
      (reach fs op.selections).names.contains f.name).map Fragment.name := by
    intro n hr
    obtain ⟨f, hf, rfl⟩ := List.mem_map.mp (hknown n hr)
    exact List.mem_map_of_mem (List.mem_filter.mpr ⟨hf, (hkeep f hf).mpr hr⟩)
  have hsub : ∀ f, f ∈ (fs.filter fun f => (reach fs op.selections).names.contains f.name) →
      f ∈ fs ∧ Reachable fs op.selections f.name := by
    intro f hf
    obtain ⟨hm, hk⟩ := List.mem_filter.mp hf
    exact ⟨hm, (hkeep f hm).mp hk⟩
  refine ⟨⟨hname, (List.filter_sublist.map _).trans ho, hop,
    fun f hf => (hfs f (hsub f hf).1).filled, fun n hu => hmem n (.direct hu),
    fun f hf n hu => ?_⟩, fun f hf => ?_,
    fun f hf => (hfs f (hsub f hf).1).ne_nil⟩
  · obtain ⟨hm, hr⟩ := hsub f hf
    exact hmem n (hr.through ((fragmentNamed?_eq_some_iff hn).mpr ⟨hm, rfl⟩) hu)
  · exact reachable_filter (hsub f hf).2 hn fun g hg => (hkeep g hg).mpr

end Client

/-- A selection set is as another one except that it may hold more without selection sets: it uses
the same, and it is filled where the other one is. -/
structure Grows (set set' : List Selection) : Prop where
  /-- The same is used. -/
  uses : Selection.setUses set' = Selection.setUses set
  /-- Selections hold no empty set if those of the other one hold none. -/
  filled : (∀ s ∈ set, s.Filled) → ∀ s ∈ set', s.Filled
  /-- There is a selection if the other one has one. -/
  ne_nil : set ≠ [] → set' ≠ []

/-- An edit drops nothing. At most it puts fields in front of the selections of fields and of
fragments. -/
structure Edit.Keeps (e : Edit) : Prop where
  /-- Selections stay. -/
  selection : e.selection = some
  /-- Selection sets stay. -/
  selections : e.selections = id
  /-- Definitions stay. -/
  definitions : e.definitions = id
  /-- The selection set of a field grows. -/
  fieldSelections : ∀ set, Grows set (e.fieldSelections set)
  /-- The selection set of a fragment grows. -/
  fragmentSelections : ∀ set, Grows set (e.fragmentSelections set)

theorem Grows.refl (set : List Selection) : Grows set set := ⟨rfl, id, id⟩

theorem Grows.trans {set set' set'' : List Selection} (h : Grows set set')
    (h' : Grows set' set'') : Grows set set'' :=
  ⟨h'.uses.trans h.uses, fun hs => h'.filled (h.filled hs), fun hs => h'.ne_nil (h.ne_nil hs)⟩

/-- A field without selection set makes a selection set grow. -/
theorem grows_cons_leaf (f : Field) (set : List Selection) : Grows set (.leaf f :: set) :=
  ⟨by simp [Selection.uses], fun hs => List.forall_mem_cons.mpr ⟨.leaf f, hs⟩, by simp⟩

/-- Selections in the place of others make a set grow, if each makes the one before it grow. -/
theorem grows_onEach {e : Edit} {set : List Selection}
    (h : ∀ s ∈ set, ∃ t, e.onSelection s = some t ∧ t.uses = s.uses ∧ (s.Filled → t.Filled)) :
    Grows set (e.onEach set) := by
  induction set with
  | nil => exact .refl []
  | cons s set ih =>
    obtain ⟨⟨t, ht, hu, hf⟩, hset⟩ := List.forall_mem_cons.mp h
    have hg := ih hset
    simp only [Edit.onEach, ht]
    refine ⟨?_, fun hs => ?_, by simp⟩
    · rw [Selection.setUses, Selection.setUses, hu, hg.uses]
    · obtain ⟨hs, hset⟩ := List.forall_mem_cons.mp hs
      exact List.forall_mem_cons.mpr ⟨hf hs, hg.filled hset⟩

namespace Edit.Keeps

variable {e : Edit} (he : e.Keeps)
include he

/-- A selection stays where it is and uses the same. -/
theorem onSelection (s : Selection) :
    ∃ t, e.onSelection s = some t ∧ t.uses = s.uses ∧ (s.Filled → t.Filled) := by
  induction s with
  | leaf f =>
    exact ⟨.leaf (e.onField f), by simp [Edit.onSelection, he.selection], rfl, fun _ => .leaf _⟩
  | nested f set ih =>
    have hg := (grows_onEach ih).trans (he.fieldSelections _)
    refine ⟨.nested (e.onField f) (e.fieldSelections (e.onEach set)),
      by simp [Edit.onSelection, he.selection, he.selections], hg.uses, fun hf => ?_⟩
    cases hf with
    | nested _ hne hs => exact .nested _ (hg.ne_nil hne) (hg.filled hs)
  | spread s =>
    exact ⟨.spread (e.onSpread s), by simp [Edit.onSelection, he.selection], rfl,
      fun _ => .spread _⟩
  | inline head set ih =>
    have hg := grows_onEach ih
    refine ⟨.inline (e.onInlineHead head) (e.onEach set),
      by simp [Edit.onSelection, he.selection, he.selections], hg.uses, fun hf => ?_⟩
    cases hf with
    | inline _ hne hs => exact .inline _ (hg.ne_nil hne) (hg.filled hs)

/-- The selections of an operation grow. -/
theorem onOperation (op : Operation) : Grows op.selections (e.onOperation op).selections := by
  have hg := grows_onEach fun s (_ : s ∈ op.selections) => he.onSelection s
  simpa [Edit.onOperation, Edit.onSelections, he.selections] using hg

/-- The selections of a fragment grow. -/
theorem onFragment (f : Fragment) : Grows f.selections (e.onFragment f).selections := by
  have hg := grows_onEach fun s (_ : s ∈ f.selections) => he.onSelection s
  simpa [Edit.onFragment, Edit.onSelections, he.selections] using
    hg.trans (he.fragmentSelections _)

end Edit.Keeps

namespace Client

variable {name : String} {order : List String} {op : Operation} {fs : List Fragment}

/-- What is reachable stays so when nothing is dropped. -/
theorem reachable_map {m : Fragment → Fragment} (hm : ∀ f, (m f).name = f.name)
    (hg : ∀ f, Grows f.selections (m f).selections) {set set' : List Selection}
    (hset : Grows set set') {n : String} (h : Reachable fs set n) :
    Reachable (fs.map m) set' n := by
  refine h.mono (fun n hn => hset.uses ▸ hn) fun n f hf => ⟨m f, ?_, fun n hn => (hg f).uses ▸ hn⟩
  have hc : (fun f : Fragment => f.name == n) ∘ m = fun f => f.name == n :=
    funext fun f => congrArg (· == n) (hm f)
  rw [fragmentNamed?, List.find?_map, hc]
  exact congrArg (Option.map m) hf

/-- A tight bundle stays tight when nothing is dropped. -/
theorem Tight.keep (h : Tight name order op fs) {e : Edit} (he : e.Keeps) :
    Tight name order (e.onOperation op) (fs.map e.onFragment) := by
  have hnames : (fs.map e.onFragment).map Fragment.name = fs.map Fragment.name := by
    simp [Edit.onFragment]
  have hop := he.onOperation op
  refine ⟨⟨h.named, ?_, hop.filled h.filled, ?_, ?_, ?_⟩, ?_, ?_⟩
  · rw [hnames]
    exact h.ordered
  · exact List.forall_mem_map.mpr fun f hf => (he.onFragment f).filled (h.fragmentsFilled f hf)
  · rw [hnames, hop.uses]
    exact h.known
  · refine List.forall_mem_map.mpr fun f hf => ?_
    rw [hnames, (he.onFragment f).uses]
    exact h.fragmentsKnown f hf
  · exact List.forall_mem_map.mpr fun f hf =>
      reachable_map (m := e.onFragment) (fun _ => rfl) he.onFragment hop (h.used f hf)
  · exact List.forall_mem_map.mpr fun f hf => (he.onFragment f).ne_nil (h.ne_nil f hf)

/-- Asking for types drops nothing. -/
theorem keeps_askingTypes : askingTypes.Keeps := by
  have hg : ∀ set, Grows set (withTypename set) := by
    intro set
    unfold withTypename
    split
    · exact .refl set
    · exact grows_cons_leaf _ set
  exact ⟨rfl, rfl, rfl, hg, hg⟩

/-- Taking directives away drops nothing. -/
theorem keeps_stripping (names : List String) : (stripping names).Keeps :=
  ⟨rfl, rfl, rfl, Grows.refl, Grows.refl⟩

end Client

end Safelist
