import Safelist.Proofs.Document.Registration
import Safelist.Proofs.Document.RoundTrip
import Safelist.Proofs.Signature.Dropping

/-!
# What is kept under a name

Under a name, all operations that bear it are kept, but only the fragments that the first
of them uses. So the first still reaches everything it could reach, with every name meaning
what it meant, and dropping again changes nothing. Another operation of the name is left
with what it shares with the first.
-/

namespace Safelist.Signature

variable {name : String} {d : Document}

@[simp] theorem isNamed_iff {op : Operation} : isNamed name op ↔ op.name = some name := by
  simp [isNamed]

section Kept

variable (used : List String)

/-- Of the operations, those of the name are kept. -/
theorem operations_filter_isKept :
    Document.operations ⟨d.definitions.filter (isKept name used)⟩ =
      d.operations.filter (isNamed name) := by
  rw [Document.operations, Document.operations, List.filterMap_filter, List.filter_filterMap]
  refine List.filterMap_congr fun x _ => ?_
  cases x with
  | operation op => simp [isKept, Definition.operation?, Option.filter_some]
  | fragment f => simp [Definition.operation?]

/-- Of the fragments, those of a used name are kept. -/
theorem fragments_filter_isKept :
    Document.fragments ⟨d.definitions.filter (isKept name used)⟩ =
      d.fragments.filter fun f => used.contains f.name := by
  rw [Document.fragments, Document.fragments, List.filterMap_filter, List.filter_filterMap]
  refine List.filterMap_congr fun x _ => ?_
  cases x with
  | operation op => simp [Definition.fragment?]
  | fragment f => simp [isKept, Definition.fragment?, Option.filter_some]

/-- A used name means what it meant. -/
theorem fragmentNamed?_filter_contains {fs : List Fragment} {n : String} (h : n ∈ used) :
    fragmentNamed? (fs.filter fun f => used.contains f.name) n = fragmentNamed? fs n := by
  rw [fragmentNamed?, fragmentNamed?, List.find?_filter]
  congr 1
  funext f
  by_cases hf : f.name = n
  · simp [hf, h]
  · simp [hf]

end Kept

/-- Every fragment that a selection set uses in a document, directly or not, is also in what is
kept of it. -/
def KeepsUsed (d kept : Document) (set : List Selection) : Prop :=
  ∀ n, Reachable d.fragments set n → (∃ f ∈ d.fragments, f.name = n) →
    ∃ f ∈ kept.fragments, f.name = n

/-- What is kept of a document serves an operation, the first of a name. -/
structure Serves (name : String) (d : Document) (first : Operation) (kept : Document) : Prop where
  /-- The operation has the name, and none before it does. -/
  named : ∃ before after, d.operations = before ++ first :: after ∧ first.name = some name ∧
    ∀ op ∈ before, op.name ≠ some name
  /-- The operations kept are those of the name. -/
  operations : kept.operations = d.operations.filter fun op => op.name = some name
  /-- The fragments kept are those whose names the operation reaches. -/
  fragments : ∀ f, f ∈ kept.fragments ↔
    f ∈ d.fragments ∧ Reachable d.fragments first.selections f.name
  /-- A name that the operation reaches means what it meant, or nothing as before. -/
  meaning : ∀ n, Reachable d.fragments first.selections n →
    fragmentNamed? kept.fragments n = fragmentNamed? d.fragments n
  /-- The operation reaches the names it reached. -/
  reachable : ∀ n, Reachable kept.fragments first.selections n ↔
    Reachable d.fragments first.selections n
  /-- Of the operations kept, this one and those that use no other fragments keep what they use. -/
  keepsUsed : ∀ op ∈ kept.operations, KeepsUsed d kept op.selections ↔
    ∀ n, Reachable d.fragments op.selections n → (∃ f ∈ d.fragments, f.name = n) →
      Reachable d.fragments first.selections n

section First

variable {first : Operation}

/-- A name that the first operation reaches means what it meant. -/
theorem fragmentNamed?_dropUnused (h : d.operations.find? (isNamed name) = some first)
    {n : String} (hr : Reachable d.fragments first.selections n) :
    fragmentNamed? (dropUnused name d).fragments n = fragmentNamed? d.fragments n := by
  rw [dropUnused_of_some h, fragments_filter_isKept]
  by_cases hm : n ∈ (reach d.fragments first.selections).names
  · exact fragmentNamed?_filter_contains _ hm
  · have hnone : fragmentNamed? d.fragments n = none := by
      by_contra hsome
      exact hm ((mem_names_reach _ _).mpr ⟨hr, Option.isSome_iff_ne_none.mpr hsome⟩)
    rw [hnone, fragmentNamed?_eq_none_iff]
    exact fun f hf => fragmentNamed?_eq_none_iff.mp hnone f (List.mem_of_mem_filter hf)

theorem reachable_dropUnused (h : d.operations.find? (isNamed name) = some first) {n : String} :
    Reachable (dropUnused name d).fragments first.selections n ↔
      Reachable d.fragments first.selections n :=
  (Reachable.congr fun _ hr => (fragmentNamed?_dropUnused h hr).symm).symm

theorem mem_fragments_dropUnused (h : d.operations.find? (isNamed name) = some first)
    {f : Fragment} : f ∈ (dropUnused name d).fragments ↔
      f ∈ d.fragments ∧ Reachable d.fragments first.selections f.name := by
  rw [dropUnused_of_some h, fragments_filter_isKept, List.mem_filter, List.contains_iff_mem,
    mem_names_reach, isSome_fragmentNamed?_iff]
  constructor
  · exact fun ⟨hf, hr, _⟩ => ⟨hf, hr⟩
  · exact fun ⟨hf, hr⟩ => ⟨hf, hr, List.mem_map_of_mem hf⟩

theorem operations_dropUnused (h : d.operations.find? (isNamed name) = some first) :
    (dropUnused name d).operations = d.operations.filter (isNamed name) := by
  rw [dropUnused_of_some h, operations_filter_isKept]

/-- The first operation of the name stays the first. -/
theorem find?_operations_dropUnused (h : d.operations.find? (isNamed name) = some first) :
    (dropUnused name d).operations.find? (isNamed name) = some first := by
  rw [operations_dropUnused h, List.find?_filter]
  simpa only [Bool.decide_and, Bool.decide_eq_true, Bool.and_self] using h

theorem serves_dropUnused (h : d.operations.find? (isNamed name) = some first) :
    Serves name d first (dropUnused name d) := by
  have hnames : ∀ n, (∃ f ∈ (dropUnused name d).fragments, f.name = n) ↔
      (∃ f ∈ d.fragments, f.name = n) ∧ Reachable d.fragments first.selections n := by
    intro n
    constructor
    · rintro ⟨f, hf, rfl⟩
      obtain ⟨hf, hr⟩ := (mem_fragments_dropUnused h).mp hf
      exact ⟨⟨f, hf, rfl⟩, hr⟩
    · rintro ⟨⟨f, hf, rfl⟩, hr⟩
      exact ⟨f, (mem_fragments_dropUnused h).mpr ⟨hf, hr⟩, rfl⟩
  refine ⟨?_, ?_, fun f => mem_fragments_dropUnused h, fun n => fragmentNamed?_dropUnused h,
    fun n => reachable_dropUnused h, fun op _ => ?_⟩
  · obtain ⟨hnamed, before, after, hops, hbefore⟩ := List.find?_eq_some_iff_append.mp h
    exact ⟨before, after, hops, isNamed_iff.mp hnamed,
      fun op hop hname => by simpa [hname, isNamed] using hbefore op hop⟩
  · rw [operations_dropUnused h]
    exact List.filter_congr fun op _ => by simp [isNamed, Bool.beq_eq_decide_eq]
  · constructor
    · exact fun hk n hr hf => ((hnames n).mp (hk n hr hf)).2
    · exact fun hk n hr hf => (hnames n).mpr ⟨hf, hk n hr hf⟩

/-- Dropping again finds the same operation and the same names. -/
theorem dropUnused_dropUnused (name : String) (d : Document) :
    dropUnused name (dropUnused name d) = dropUnused name d := by
  cases h : d.operations.find? (isNamed name) with
  | none => rw [dropUnused_of_none h, dropUnused_of_none h]
  | some first =>
    have hused : ∀ n, n ∈ (reach (dropUnused name d).fragments first.selections).names ↔
        n ∈ (reach d.fragments first.selections).names := by
      intro n
      rw [mem_names_reach, mem_names_reach, reachable_dropUnused h]
      exact and_congr_right fun hr => by rw [fragmentNamed?_dropUnused h hr]
    rw [dropUnused_of_some (find?_operations_dropUnused h), isKept_congr name hused,
      dropUnused_of_some h, List.filter_filter]
    simp only [Bool.and_self]

end First

/-- What is kept under a name stands in its order and is kept again. It is the whole document
where no operation has the name, and otherwise serves the first that does. -/
theorem dropUnused_serves_first (name : String) (d : Document) :
    (dropUnused name d).definitions.Sublist d.definitions ∧
      dropUnused name (dropUnused name d) = dropUnused name d ∧
      ((∀ op ∈ d.operations, op.name ≠ some name) ∧ dropUnused name d = d ∨
        ∃ first, Serves name d first (dropUnused name d)) := by
  refine ⟨?_, dropUnused_dropUnused name d, ?_⟩
  · cases h : d.operations.find? (isNamed name) with
    | none => rw [dropUnused_of_none h]
    | some first =>
      rw [dropUnused_of_some h]
      exact List.filter_sublist
  · cases h : d.operations.find? (isNamed name) with
    | none =>
      refine .inl ⟨fun op hop hname => ?_, dropUnused_of_none h⟩
      exact List.find?_eq_none.mp h op hop (isNamed_iff.mpr hname)
    | some first => exact .inr ⟨first, serves_dropUnused h⟩

/-- A second operation of the name is kept without the fragment it uses. -/
theorem dropUnused_leaves_second_dangling :
    ∃ d, Document.parse "query A {...F} query A {...G} fragment F on T {f} fragment G on T {g}" =
        .ok d ∧
      (dropUnused "A" d).print = "query A{...F}query A{...G}fragment F on T{f}" ∧
      ∃ op ∈ (dropUnused "A" d).operations, op.name = some "A" ∧
        ¬KeepsUsed d (dropUnused "A" d) op.selections := by
  refine Document.exists_of_map (by decide +kernel) fun d hd _ => ?_
  have hall : (Document.parse
      "query A {...F} query A {...G} fragment F on T {f} fragment G on T {g}").map
        (fun d => (d.fragments.map Fragment.name,
          (dropUnused "A" d).fragments.map Fragment.name,
          (dropUnused "A" d).operations.map fun op => (op.name, Selection.setUses op.selections))) =
      .ok (["F", "G"], ["F"], [(some "A", ["F"]), (some "A", ["G"])]) := by decide +kernel
  rw [hd] at hall
  obtain ⟨hnames, hkept, hops⟩ : _ ∧ _ ∧ _ := by simpa only [Except.map, Except.ok.injEq,
    Prod.mk.injEq] using hall
  have hm : (some "A", ["G"]) ∈ (dropUnused "A" d).operations.map
      fun op => (op.name, Selection.setUses op.selections) := by
    rw [hops]
    exact List.mem_cons_of_mem _ List.mem_cons_self
  obtain ⟨op, hop, heq⟩ := List.mem_map.mp hm
  obtain ⟨hname, huses⟩ := Prod.mk.inj heq
  have hused : Reachable d.fragments op.selections "G" := .direct (huses ▸ List.mem_cons_self)
  refine ⟨op, hop, hname, fun hk => ?_⟩
  have hdefined : ∃ f ∈ d.fragments, f.name = "G" := List.mem_map.mp (by simp [hnames])
  obtain ⟨f, hf, hfname⟩ := hk "G" hused hdefined
  have hf : f.name ∈ (dropUnused "A" d).fragments.map Fragment.name := List.mem_map_of_mem hf
  simp [hkept, hfname] at hf

end Safelist.Signature
