import Safelist.Proofs.Client.Provenance

/-!
# What a project holds

A project that is put together from files holds their operations with a name and
their fragments, in the order of the files and inside them, and no name of either
kind twice. Every definition of a file can be written, and none of its selection
sets is empty.
-/

namespace Safelist.Client

/-- The definitions of some files, in the order of the files and inside them. -/
def definitionsOf (sources : List (String × String)) : List Definition :=
  sources.flatMap fun source =>
    match Document.parse source.2 with
    | .ok d => d.definitions
    | .error _ => []

/-- The fragments of some files, in the order of the files and inside them. -/
def fragmentsOf (sources : List (String × String)) : List Fragment :=
  (definitionsOf sources).filterMap Definition.fragment?

/-- A definition of a file is one of a well-formed document. -/
theorem wellFormed_of_mem_definitionsOf {sources : List (String × String)} {x : Definition}
    (hx : x ∈ definitionsOf sources) : x.WellSpelled ∧ FilledSet x.selections := by
  obtain ⟨source, -, hx⟩ := List.mem_flatMap.mp hx
  split at hx
  · rename_i d hd
    have hw := Document.wellFormed_of_parse hd
    exact ⟨hw.wellSpelled x hx, hw.filled x hx⟩
  · cases hx

namespace Project

/-- A project holds some definitions: operations with a name and fragments, each name once. -/
structure Holds (p : Project) (xs : List Definition) : Prop where
  /-- The operations are those with a name, in order. -/
  operations : p.operations.map SourcedOperation.operation =
    (xs.filterMap Definition.operation?).filter fun op => op.name.isSome
  /-- Operations are known by their names. -/
  named : ∀ o ∈ p.operations, o.operation.name = some o.name
  /-- The fragments are all there are, in order. -/
  fragments : p.fragmentList = xs.filterMap Definition.fragment?
  /-- No operation has the name of another. -/
  operationNames : (p.operations.map SourcedOperation.name).Nodup
  /-- No fragment has the name of another. -/
  fragmentNames : (p.fragmentList.map Fragment.name).Nodup

variable {p q : Project} {path : String} {xs : List Definition}

theorem holds_empty : empty.Holds [] :=
  ⟨rfl, by simp [empty], rfl, by simp [empty], by simp [empty, fragmentList]⟩

/-- A name at the end of others that it is not among does not repeat any. -/
theorem nodup_concat {names : List String} {name : String} (h : names.Nodup)
    (hn : name ∉ names) : (names ++ [name]).Nodup := by
  refine List.nodup_append.mpr ⟨h, by simp, fun a ha b hb hab => ?_⟩
  exact hn (List.mem_singleton.mp hb ▸ hab ▸ ha)

theorem operation?_eq_none_iff {name : String} :
    p.operation? name = none ↔ name ∉ p.operations.map SourcedOperation.name := by
  simp [operation?]

theorem fragment?_eq_none_iff {name : String} :
    p.fragment? name = none ↔ name ∉ p.fragmentList.map Fragment.name := by
  simp [fragment?, fragmentList]

/-- One more definition is held behind the others. -/
theorem Holds.define (h : p.Holds xs) {x : Definition}
    (hq : (p.define path x).outcome = .ok q) : q.Holds (xs ++ [x]) := by
  cases x with
  | operation op =>
    simp only [Project.define] at hq
    split at hq
    · rename_i hn
      cases hq
      exact { h with
        operations := by simp [h.operations, Definition.operation?, hn]
        fragments := by simp [h.fragments, Definition.fragment?] }
    · rename_i name hn
      split at hq
      · cases hq
      · rename_i hnew
        cases hq
        refine ⟨?_, ?_, ?_, ?_, h.fragmentNames⟩
        · simp [h.operations, Definition.operation?, hn]
        · exact List.forall_mem_append.mpr ⟨h.named, by simpa using hn⟩
        · have hf := h.fragments
          simp only [fragmentList] at hf
          simp [fragmentList, hf, Definition.fragment?]
        · simpa using nodup_concat h.operationNames (operation?_eq_none_iff.mp hnew)
  | fragment f =>
    simp only [Project.define] at hq
    split at hq
    · cases hq
    · rename_i hnew
      cases hq
      refine ⟨?_, h.named, ?_, h.operationNames, ?_⟩
      · simp [h.operations, Definition.operation?]
      · have hf := h.fragments
        simp only [fragmentList] at hf
        simp [fragmentList, hf, Definition.fragment?]
      · have hf := nodup_concat h.fragmentNames (fragment?_eq_none_iff.mp hnew)
        simpa [fragmentList] using hf

theorem Holds.defineAll (h : p.Holds xs) {ys : List Definition}
    (hq : (p.defineAll path ys).outcome = .ok q) : q.Holds (xs ++ ys) := by
  induction ys generalizing p xs with
  | nil =>
    cases hq
    simpa using h
  | cons y ys ih =>
    obtain ⟨p', hp', hq⟩ := Log.Account.outcome_bind_eq_ok_iff.mp hq
    simpa using ih (h.define hp') hq

theorem Holds.addSource (h : p.Holds xs) {text : String}
    (hq : (p.addSource path text).outcome = .ok q) :
    q.Holds (xs ++ definitionsOf [(path, text)]) := by
  unfold Project.addSource at hq
  split at hq
  · cases hq
  · rename_i d hd
    rw [Log.Account.outcome_note_bind] at hq
    obtain ⟨p', hp', hq⟩ := Log.Account.outcome_bind_eq_ok_iff.mp hq
    cases hq
    have h' := h.defineAll hp'
    have hds : definitionsOf [(path, text)] = d.definitions := by simp [definitionsOf, hd]
    rw [hds]
    exact ⟨h'.operations, h'.named, h'.fragments, h'.operationNames, h'.fragmentNames⟩

theorem Holds.addSources (h : p.Holds xs) {sources : List (String × String)}
    (hq : (p.addSources sources).outcome = .ok q) : q.Holds (xs ++ definitionsOf sources) := by
  induction sources generalizing p xs with
  | nil =>
    cases hq
    simpa [definitionsOf] using h
  | cons source sources ih =>
    obtain ⟨path, text⟩ := source
    obtain ⟨p', hp', hq⟩ := Log.Account.outcome_bind_eq_ok_iff.mp hq
    have hq' := ih (h.addSource hp') hq
    simpa [definitionsOf] using hq'

/-- The project of some files holds the definitions of these files. -/
theorem holds_of_ofSources {sources : List (String × String)}
    (hp : (ofSources sources).outcome = .ok p) : p.Holds (definitionsOf sources) := by
  simpa using holds_empty.addSources hp

end Project

end Safelist.Client
