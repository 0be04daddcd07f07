import Mathlib.Data.List.Nodup
import Safelist.Proofs.Client.Merging
import Safelist.Proofs.Client.Shuffling
import Safelist.Proofs.Document.Equality
import Safelist.Proofs.Manifest.FixedPoint

/-!
# A record depends on an operation and the fragments it uses

Where the files of two projects define an operation and every fragment it uses
alike, the bundles of the operation hold the same fragments in some order. So the
operation is skipped in both projects, or kept in both with the same record,
whatever else the files define and wherever anything stands in them.
-/

namespace Safelist

namespace Client

/-- The files of two projects define an operation of a name alike, together with every fragment
that it uses. -/
structure DefineAlike (sources sources' : List (String × String)) (name : String)
    (op : Operation) : Prop where
  /-- The operation has the name. -/
  named : op.name = some name
  /-- The files of the one project define the operation. -/
  operation : .operation op ∈ definitionsOf sources
  /-- So do those of the other. -/
  operation' : .operation op ∈ definitionsOf sources'
  /-- What the operation uses in the one project is a fragment of both. -/
  fragments : ∀ n, Reachable (fragmentsOf sources) op.selections n →
    ∃ f, f.name = n ∧ f ∈ fragmentsOf sources ∧ f ∈ fragmentsOf sources'

namespace Project

variable {sources sources' : List (String × String)} {p p' : Project} {name : String}
  {op : Operation}

/-- An operation of some definitions is one of the project that holds them. -/
theorem Holds.exists_sourced {xs : List Definition} (h : p.Holds xs) (hop : .operation op ∈ xs)
    (hn : op.name = some name) : ∃ o ∈ p.operations, o.operation = op ∧ o.name = name := by
  have hm : op ∈ p.operations.map SourcedOperation.operation := by
    rw [h.operations]
    exact List.mem_filter.mpr ⟨List.mem_filterMap.mpr ⟨_, hop, rfl⟩, by simp [hn]⟩
  obtain ⟨o, ho, rfl⟩ := List.mem_map.mp hm
  exact ⟨o, ho, rfl, Option.some.inj ((h.named o ho).symm.trans hn)⟩

theorem mem_usedBy {f : Fragment} :
    f ∈ p.usedBy op ↔ f ∈ p.fragmentList ∧ Reachable p.fragmentList op.selections f.name := by
  rw [usedBy, List.mem_filter, List.contains_iff_mem, mem_names_reach, isSome_fragmentNamed?_iff]
  exact and_congr_right fun hf => and_iff_left (List.mem_map_of_mem hf)

/-- The bundles of an operation hold the same fragments, where the files define them alike. -/
theorem shuffled_of_bundle (hp : p.Holds (definitionsOf sources))
    (hp' : p'.Holds (definitionsOf sources')) (h : DefineAlike sources sources' name op)
    {o o' : SourcedOperation} (ho : o.operation = op) (ho' : o'.operation = op)
    {b b' : Document} (hb : p.bundle o = .ok b) (hb' : p'.bundle o' = .ok b') :
    Shuffled b b' := by
  have hsame : ∀ n, Reachable p.fragmentList op.selections n →
      fragmentNamed? p.fragmentList n = fragmentNamed? p'.fragmentList n := by
    intro n hr
    rw [hp.fragments] at hr
    obtain ⟨f, hn, hf, hf'⟩ := h.fragments n hr
    have hfind := (fragmentNamed?_eq_some_iff hp.fragmentNames).mpr ⟨hp.fragments ▸ hf, hn⟩
    have hfind' := (fragmentNamed?_eq_some_iff hp'.fragmentNames).mpr ⟨hp'.fragments ▸ hf', hn⟩
    rw [hfind, hfind']
  have hreach : ∀ n, Reachable p.fragmentList op.selections n ↔
      Reachable p'.fragmentList op.selections n := fun n => Reachable.congr hsame
  have hmem : ∀ f, f ∈ usedBy p op ↔ f ∈ usedBy p' op := by
    intro f
    rw [mem_usedBy, mem_usedBy, ← hreach]
    refine and_congr_left fun hr => ?_
    have hf : fragmentNamed? p.fragmentList f.name = some f ↔
        f ∈ p.fragmentList ∧ f.name = f.name := fragmentNamed?_eq_some_iff hp.fragmentNames
    have hf' : fragmentNamed? p'.fragmentList f.name = some f ↔
        f ∈ p'.fragmentList ∧ f.name = f.name := fragmentNamed?_eq_some_iff hp'.fragmentNames
    rw [hsame _ hr] at hf
    simpa using hf.symm.trans hf'
  have hn : ((usedBy p op).map Fragment.name).Nodup :=
    (List.filter_sublist.map _).nodup hp.fragmentNames
  have hn' : ((usedBy p' op).map Fragment.name).Nodup :=
    (List.filter_sublist.map _).nodup hp'.fragmentNames
  rw [(bundle_eq_ok_iff.mp hb).2, (bundle_eq_ok_iff.mp hb').2, ho, ho']
  exact shuffled_bundle ((List.perm_ext_iff_of_nodup (.of_map _ hn) (.of_map _ hn')).mpr hmem) hn

end Project

end Client

namespace Manifest

open Client

/-- What becomes of an operation in two projects: it is skipped in both, which the logs say, or
kept in both with one record. -/
inductive SameFate (s : Settings) (name : String) (p p' : Project) (set set' : OperationSet) : Prop
  /-- The operation is skipped in both projects. -/
  | skipped (h : p.LogsSkip s name) (h' : p'.LogsSkip s name) (hn : set.get? name = none)
    (hn' : set'.get? name = none)
  /-- The operation is kept in both projects, with one record. -/
  | kept {d d' : Document} {r : Record} (h : ¬p.LogsSkip s name) (h' : ¬p'.LogsSkip s name)
    (hd : set.get? name = some d) (hd' : set'.get? name = some d')
    (hr : Recipe.standard.record name d = .ok r) (hr' : Recipe.standard.record name d' = .ok r)

/-- Documents that differ in the order of fragments alone have the same record. -/
theorem record_eq_of_shuffled {d d' : Document} (h : Shuffled d d') {op op' : Operation}
    (hd : d.Registers op) (hd' : d'.Registers op') (name : String) :
    ∃ r, Recipe.standard.record name d = .ok r ∧ Recipe.standard.record name d' = .ok r := by
  have hsort : Signature.sort d.shape = Signature.sort d'.shape := by
    rw [Signature.sort_shape, Signature.sort_shape, h.sort_eq]
  have hengine : Signature.engineSignature Signature.placeholderName d =
      Signature.engineSignature Signature.placeholderName d' := by
    rw [← Signature.engineSignature_sort, h.sort_eq, Signature.engineSignature_sort]
  refine ⟨_, Recipe.record_eq_ok_iff.mpr ⟨⟨op, hd⟩, rfl⟩, ?_⟩
  rw [hsort, hengine]
  exact Recipe.record_eq_ok_iff.mpr ⟨⟨op', hd'⟩, rfl⟩

/-- The record of an operation depends on nothing but the operation and the fragments it uses. -/
theorem same_fate_of_defineAlike {s : Settings} {sources sources' : List (String × String)}
    {p p' : Project} {set set' : OperationSet} (hp : (Project.ofSources sources).outcome = .ok p)
    (hp' : (Project.ofSources sources').outcome = .ok p')
    (hset : (p.operationSet s).outcome = .ok set) (hset' : (p'.operationSet s).outcome = .ok set')
    {name : String} {op : Operation} (h : DefineAlike sources sources' name op) :
    SameFate s name p p' set set' := by
  have hh := Project.holds_of_ofSources hp
  have hh' := Project.holds_of_ofSources hp'
  obtain ⟨o, ho, hop, hn⟩ := hh.exists_sourced h.operation h.named
  obtain ⟨o', ho', hop', hn'⟩ := hh'.exists_sourced h.operation' h.named
  have hshuffled : ∀ {b b'}, p.bundle o = .ok b → p'.bundle o' = .ok b' →
      Shuffled (serverSide s b) (serverSide s b') := fun hb hb' =>
    shuffled_serverSide (Project.shuffled_of_bundle hh hh' h hop hop' hb hb') s
  have hregisters : ∀ {sources p set d}, (Project.ofSources sources).outcome = .ok p →
      (p.operationSet s).outcome = .ok set → set.get? name = some d → ∃ op, d.Registers op := by
    intro sources p set d hp hset hd
    have hh := Project.holds_of_ofSources hp
    have hfilled : ∀ x ∈ definitionsOf sources, FilledSet x.selections :=
      fun x hx => (wellFormed_of_mem_definitionsOf hx).2
    obtain ⟨op, fs, rfl, ht, hne⟩ := hh.exists_of_mem_operationSet hfilled hset
      (OperationSet.get?_eq_some_iff.mp hd)
    exact ⟨op, ht.registers hh.fragmentNames hne⟩
  have hfate := hh.skipped_or_kept hset ho
  have hfate' := hh'.skipped_or_kept hset' ho'
  rw [hn] at hfate
  rw [hn'] at hfate'
  obtain ⟨⟨b, hb, hc⟩, hlog, hget⟩ | ⟨_, ⟨b, hb, rfl, hc⟩, hlog, hget⟩ := hfate <;>
    obtain ⟨⟨b', hb', hc'⟩, hlog', hget'⟩ | ⟨_, ⟨b', hb', rfl, hc'⟩, hlog', hget'⟩ := hfate'
  · exact .skipped hlog hlog' hget hget'
  · rw [(hshuffled hb hb').isClientOnly_eq, hc'] at hc
    cases hc
  · rw [(hshuffled hb hb').isClientOnly_eq, hc'] at hc
    cases hc
  · obtain ⟨op₁, h₁⟩ := hregisters hp hset hget
    obtain ⟨op₂, h₂⟩ := hregisters hp' hset' hget'
    obtain ⟨r, hr, hr'⟩ := record_eq_of_shuffled (hshuffled hb hb') h₁ h₂ name
    exact .kept hlog hlog' hget hget' hr hr'

/-- An operation with two fragments in two projects: the second one has other operations, an unused
fragment, and everything in another order. -/
theorem same_fate_of_defineAlike_reordered :
    ∃ sources sources' : List (String × String),
      sources = [("a", "query Q {q {...F}} fragment F on T {f ...G}"),
        ("b", "fragment G on U {g}")] ∧
      sources' = [("c", "{z} fragment H on V {h} fragment G on U {g} query R {r}"),
        ("d", "fragment F on T {f ...G} query Q {q {...F}}")] ∧
      ∃ op, DefineAlike sources sources' "Q" op ∧
        ∃ p set, (Project.ofSources sources).outcome = .ok p ∧
          (p.operationSet {}).outcome = .ok set ∧ set.names = ["Q"] ∧
          ∃ p' set', (Project.ofSources sources').outcome = .ok p' ∧
            (p'.operationSet {}).outcome = .ok set' ∧ set'.names = ["R", "Q"] ∧
            SameFate {} "Q" p p' set set' := by
  have hd : definitionsOf [("a", "query Q {q {...F}} fragment F on T {f ...G}"),
      ("b", "fragment G on U {g}")] =
        [.operation ⟨.query, some "Q", [], [], [.nested (.plain "q") [.spread ⟨"F", []⟩]]⟩,
          .fragment ⟨"F", "T", [], [.leaf (.plain "f"), .spread ⟨"G", []⟩]⟩,
          .fragment ⟨"G", "U", [], [.leaf (.plain "g")]⟩] := by decide +kernel
  have hd' : definitionsOf [("c", "{z} fragment H on V {h} fragment G on U {g} query R {r}"),
        ("d", "fragment F on T {f ...G} query Q {q {...F}}")] =
        [.operation ⟨.query, none, [], [], [.leaf (.plain "z")]⟩,
          .fragment ⟨"H", "V", [], [.leaf (.plain "h")]⟩,
          .fragment ⟨"G", "U", [], [.leaf (.plain "g")]⟩,
          .operation ⟨.query, some "R", [], [], [.leaf (.plain "r")]⟩,
          .fragment ⟨"F", "T", [], [.leaf (.plain "f"), .spread ⟨"G", []⟩]⟩,
          .operation ⟨.query, some "Q", [], [], [.nested (.plain "q") [.spread ⟨"F", []⟩]]⟩] := by
    decide +kernel
  have halike : DefineAlike [("a", "query Q {q {...F}} fragment F on T {f ...G}"),
      ("b", "fragment G on U {g}")]
      [("c", "{z} fragment H on V {h} fragment G on U {g} query R {r}"),
        ("d", "fragment F on T {f ...G} query Q {q {...F}}")] "Q"
      ⟨.query, some "Q", [], [], [.nested (.plain "q") [.spread ⟨"F", []⟩]]⟩ := by
    refine ⟨rfl, by simp [hd], by simp [hd'], fun n hr => ?_⟩
    simp only [fragmentsOf, hd, hd', List.filterMap_cons, Definition.fragment?,
      List.filterMap_nil] at hr ⊢
    have hn : n = "F" ∨ n = "G" := by
      cases hr with
      | direct hu => exact .inl (by simpa [Selection.uses] using hu)
      | through _ hf hu =>
        rcases (by simpa using List.mem_of_find?_eq_some hf : _ ∨ _) with rfl | rfl
        · exact .inr (by simpa [Selection.uses] using hu)
        · simp [Selection.uses] at hu
    rcases hn with rfl | rfl
    · exact ⟨⟨"F", "T", [], [.leaf (.plain "f"), .spread ⟨"G", []⟩]⟩, rfl, by simp, by simp⟩
    · exact ⟨⟨"G", "U", [], [.leaf (.plain "g")]⟩, rfl, by simp, by simp⟩
  refine ⟨_, _, rfl, rfl, _, halike, ?_⟩
  refine Project.exists_operationSet_of_map (by decide +kernel) fun p set hp hset _ => ?_
  refine Project.exists_operationSet_of_map (by decide +kernel) fun p' set' hp' hset' _ => ?_
  exact same_fate_of_defineAlike hp hp' hset hset' halike

end Manifest

end Safelist
