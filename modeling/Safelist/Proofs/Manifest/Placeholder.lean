import Safelist.Proofs.Client.Merging
import Safelist.Proofs.Manifest.FixedPoint

/-!
# The name that engine signatures are asked for does not matter

What a project registers for an operation is the operation with exactly the fragments
it uses. Nothing of it is unused, so nothing is dropped from it under the name of the
operation, and under any other name nothing is dropped anyway. So the engine signature
in a record is that of the operation under its own name, although it is asked for under
a name that stands in for it.
-/

namespace Safelist

open Signature

/-- Nothing is dropped from a bundle all of whose fragments are used, whatever name is asked
for. -/
theorem Client.Tight.dropUnused_bundle {name : String} {order : List String} {op : Operation}
    {fs : List Fragment} (h : Tight name order op fs) (n : String) :
    dropUnused n (.bundle op fs) = .bundle op fs := by
  cases hnamed : isNamed n op with
  | false =>
    refine dropUnused_of_none ?_
    simp [hnamed]
  | true =>
    have hfind : (Document.bundle op fs).operations.find? (isNamed n) = some op := by
      simp [hnamed]
    rw [dropUnused_of_some hfind, Document.fragments_bundle]
    refine congrArg Document.mk (List.filter_eq_self.mpr fun x hx => ?_)
    rcases List.mem_cons.mp hx with rfl | hx
    · exact hnamed
    · obtain ⟨f, hf, rfl⟩ := List.mem_map.mp hx
      have hmeans : (fragmentNamed? fs f.name).isSome := by
        rw [isSome_fragmentNamed?_iff]
        exact List.mem_map_of_mem hf
      rw [isKept, List.contains_iff_mem, mem_names_reach]
      exact ⟨h.used f hf, hmeans⟩

namespace Manifest

/-- An operation is registered with nothing that it does not use: no name makes anything drop out
of its document. -/
structure SignedAsNamed (name : String) (d : Document) : Prop where
  /-- Nothing is dropped under any name. -/
  dropUnused : ∀ n, Signature.dropUnused n d = d
  /-- The one operation of the document has the name that it is registered under. -/
  named : ∃ op, d.operations = [op] ∧ op.name = some name
  /-- The document has a record, and its engine signature is that of the operation under its own
  name. -/
  record : ∃ r, Recipe.standard.record name d = .ok r ∧
    r.engineSignature = engineSignature name d

/-- Every entry of the operation set of a project is signed as if its operation had been asked for
by its own name. -/
theorem merged_signed_as_named {sources : List (String × String)} {p : Client.Project}
    {s : Client.Settings} {set : OperationSet} {name : String} {d : Document}
    (hp : (Client.Project.ofSources sources).outcome = .ok p)
    (hset : (p.operationSet s).outcome = .ok set) (hd : (name, d) ∈ set.entries) :
    SignedAsNamed name d := by
  have hh := Client.Project.holds_of_ofSources hp
  have hfilled : ∀ x ∈ Client.definitionsOf sources, FilledSet x.selections :=
    fun x hx => (Client.wellFormed_of_mem_definitionsOf hx).2
  obtain ⟨op, fs, rfl, ht, hne⟩ := hh.exists_of_mem_operationSet hfilled hset hd
  have hall : ∀ n, Signature.dropUnused n (.bundle op fs) = .bundle op fs := ht.dropUnused_bundle
  refine ⟨hall, ⟨op, Document.operations_bundle op fs, ht.named⟩, _,
    Recipe.record_eq_ok_iff.mpr ⟨⟨op, ht.registers hh.fragmentNames hne⟩, rfl⟩, ?_⟩
  show engineSignature placeholderName (.bundle op fs) = engineSignature name (.bundle op fs)
  rw [engineSignature, engineSignature, hall, hall]

/-- With nothing to erase, an operation that has the name which stands in for others and an
operation that uses fragments in a circle are both signed as named. -/
theorem merged_signed_as_named_unerased :
    ∃ sources : List (String × String), sources =
        [("a", "query Q {x: a(n: 1) {...F}} mutation TODO {...G}"),
          ("b", "fragment U on T {u} fragment G on T {...F} fragment F on T {f ...G}")] ∧
      ∃ p set, (Client.Project.ofSources sources).outcome = .ok p ∧
        (p.operationSet { addTypename := false, clientSchemaDirectives := [] }).outcome =
          .ok set ∧
        set.entries.map (fun e => (e.1, engineSignature placeholderName e.2)) =
          [("Q", "fragment F on T{f...G}fragment G on T{...F}query Q{a(n:0){...F}}"),
            ("TODO", "fragment F on T{f...G}fragment G on T{...F}mutation TODO{...G}")] ∧
        ∀ name d, (name, d) ∈ set.entries → SignedAsNamed name d := by
  refine ⟨_, rfl, Client.Project.exists_operationSet_of_map ?_ fun p set hp hset _ =>
    fun name d hd => merged_signed_as_named hp hset hd⟩
  unfold engineSignature canonicalText sort canonicalOrder
  simp only [sortByKey_eq_insertionSort]
  decide +kernel

end Manifest

end Safelist
