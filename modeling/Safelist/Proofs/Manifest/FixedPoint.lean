import Safelist.Proofs.Client.Provenance
import Safelist.Proofs.Manifest.Literals
import Safelist.Proofs.Signature.WellFormed

/-!
# Records are fixed points

The text of a record denotes the shape of its document in canonical order. That
document can be registered if the first one could be, and its record is the same.
So a record with both its signatures is a function of its text.
-/

namespace Safelist

open Signature

/-- A document that can be registered can be registered in canonical order. -/
theorem Document.Registers.sort {d : Document} {op : Operation} (h : d.Registers op) :
    (Signature.sort d).Registers op.sorted where
  operations := by
    have hp := operations_sort_perm d
    rw [h.operations] at hp
    exact List.perm_singleton.mp hp
  nodup := by
    have hp := (fragments_sort_perm d).map Fragment.name
    rw [List.map_map] at hp
    exact hp.nodup_iff.mpr h.nodup
  fragments f hf := by
    obtain ⟨g, hg, rfl⟩ := List.mem_map.mp ((fragments_sort_perm d).mem_iff.mp hf)
    exact (h.fragments g hg).sortedList
  selections := h.selections.sortedList
  used name hn := by
    rw [fragmentNamed?_sort, Option.isSome_map]
    exact h.used name (reachable_sort.mp hn)

/-- A registrable document is well formed if it can be written. -/
theorem Document.Registers.wellFormed {d : Document} {op : Operation} (h : d.Registers op)
    (hd : ∀ x ∈ d.definitions, x.WellSpelled) : d.WellFormed := by
  have hop : op ∈ d.operations := by simp [h.operations]
  refine ⟨fun hn => ?_, hd, fun x hx => ?_⟩
  · simp [Document.operations, hn] at hop
  · cases x with
    | operation op' =>
      have hm : op' ∈ d.operations := List.mem_filterMap.mpr ⟨_, hx, rfl⟩
      rw [h.operations, List.mem_singleton] at hm
      exact hm ▸ h.selections
    | fragment f => exact h.fragments f (List.mem_filterMap.mpr ⟨_, hx, rfl⟩)

namespace Manifest.Recipe

variable {name : String} {d : Document} {r : Record}

/-- A record is made of its text, its digest and the engine signature. -/
theorem record_eq_ok_iff :
    standard.record name d = .ok r ↔
      (∃ op, d.Registers op) ∧
        r = ⟨Digest.ofText (Signature.sort d.shape).print, (Signature.sort d.shape).print,
          Signature.engineSignature placeholderName d⟩ := by
  rw [← Document.check_eq_ok_iff, ← canonicalText_redact]
  simp only [record, standard]
  cases d.check with
  | error e => simp
  | ok u => simp [eq_comm]

/-- The text of a record denotes a document with the same record. -/
theorem exists_parse_of_record (hd : ∀ x ∈ d.definitions, x.WellSpelled)
    (h : standard.record name d = .ok r) :
    ∃ d', Document.parse r.document = .ok d' ∧ standard.record name d' = .ok r := by
  obtain ⟨⟨op, hop⟩, rfl⟩ := record_eq_ok_iff.mp h
  have hcheck : d.shape.check = .ok () :=
    (d.check_map Value.shape).trans (Document.check_eq_ok_iff.mpr ⟨op, hop⟩)
  obtain ⟨op', hop'⟩ := Document.check_eq_ok_iff.mp hcheck
  have hshape : Signature.sort (Signature.sort d.shape).shape = Signature.sort d.shape := by
    rw [← sort_shape, Document.shape_shape, sort_sort]
  refine ⟨Signature.sort d.shape, (hop.wellFormed hd).parse_print_sort_shape, ?_⟩
  rw [record_eq_ok_iff, hshape, engineSignature_sort, engineSignature_shape]
  exact ⟨⟨_, hop'.sort⟩, rfl⟩

/-- A record does not hold its name. -/
theorem record_eq_record {name' : String} {r' : Record} (h : standard.record name d = .ok r)
    (h' : standard.record name' d = .ok r') : r = r' := by
  rw [(record_eq_ok_iff.mp h).2, (record_eq_ok_iff.mp h').2]

end Manifest.Recipe

namespace Manifest

/-- A document that records are asked for: one that is read from a text, or an entry of the
operation set of a project from files. -/
inductive Supplied : Document → Prop
  /-- The document is read from a text. -/
  | read {source : String} {d : Document} (h : Document.parse source = .ok d) : Supplied d
  /-- The document is what the server is to see of an operation. -/
  | merged {sources : List (String × String)} {p : Client.Project} {s : Client.Settings}
    {set : OperationSet} {name : String} {d : Document}
    (hp : (Client.Project.ofSources sources).outcome = .ok p)
    (hset : (p.operationSet s).outcome = .ok set) (hd : (name, d) ∈ set.entries) : Supplied d

/-- Documents that records are asked for can be written. -/
theorem Supplied.wellSpelled {d : Document} (h : Supplied d) :
    ∀ x ∈ d.definitions, x.WellSpelled := by
  cases h with
  | read h => exact (Document.wellFormed_of_parse h).wellSpelled
  | merged hp hset hd => exact Client.Project.wellSpelled_of_mem_operationSet hp hset hd

/-- The text of a record denotes a document with the very same record, and no other record
has this text. -/
theorem record_fixed_by_text {name : String} {d : Document} {r : Record} (hd : Supplied d)
    (h : Recipe.standard.record name d = .ok r) :
    (∃ d', Document.parse r.document = .ok d' ∧ Recipe.standard.record name d' = .ok r) ∧
      ∀ name' d' r', Supplied d' → Recipe.standard.record name' d' = .ok r' →
        r'.document = r.document → r' = r := by
  obtain ⟨e, he, hr⟩ := Recipe.exists_parse_of_record hd.wellSpelled h
  refine ⟨⟨e, he, hr⟩, fun name' d' r' hd' h' htext => ?_⟩
  obtain ⟨e', he', hr'⟩ := Recipe.exists_parse_of_record hd'.wellSpelled h'
  rw [htext, he] at he'
  cases he'
  exact Recipe.record_eq_record hr' hr

/-- Literals of every kind, in an operation with a fragment behind it, an alias and everything
out of order. -/
theorem record_fixed_by_text_unordered :
    ∃ d,
      Document.parse "query q($a: t = 2.5 @d(y: [1], x: -3)) {...f w: e} fragment f on u {g}" =
        .ok d ∧
      d.check = .ok () ∧
      ∃ r, Recipe.standard.record "q" d = .ok r ∧
        (∃ d', Document.parse r.document = .ok d' ∧ Recipe.standard.record "q" d' = .ok r) ∧
          ∀ name' d' r', Supplied d' → Recipe.standard.record name' d' = .ok r' →
            r'.document = r.document → r' = r := by
  refine Document.exists_of_map (by decide +kernel) fun d hd hcheck => ?_
  obtain ⟨r, hr⟩ : ∃ r, Recipe.standard.record "q" d = .ok r :=
    ⟨_, Recipe.record_eq_ok_iff.mpr ⟨Document.check_eq_ok_iff.mp hcheck, rfl⟩⟩
  exact ⟨r, hr, record_fixed_by_text (.read hd) hr⟩

end Manifest

end Safelist
