import Safelist.Proofs.Client.Editing
import Safelist.Proofs.Document.Soundness

/-!
# Where everything in a project comes from

Whatever a project defines stands in the document of one of its files, and every
entry of its operation set is what the server is to see of an operation's bundle.
Since documents that are read can be written, so can all entries.
-/

namespace Safelist

namespace Log.Account

variable {ε α β : Type}

/-- Work in two parts succeeds when both parts do. -/
theorem outcome_bind_eq_ok_iff {first : Account ε α} {next : α → Account ε β} {b : β} :
    (first >>= next).outcome = .ok b ↔ ∃ a, first.outcome = .ok a ∧ (next a).outcome = .ok b := by
  rw [outcome_bind]
  cases first.outcome <;> simp [Except.bind]

theorem outcome_bind_eq_error_iff {first : Account ε α} {next : α → Account ε β} {e : ε} :
    (first >>= next).outcome = .error e ↔
      first.outcome = .error e ∨ ∃ a, first.outcome = .ok a ∧ (next a).outcome = .error e := by
  rw [outcome_bind]
  cases first.outcome <;> simp [Except.bind]

/-- Entries do not matter to what comes out. -/
@[simp] theorem outcome_note_bind (e : Entry) (next : Unit → Account ε β) :
    (note e >>= next).outcome = (next ()).outcome := rfl

end Log.Account

namespace Client.Project

/-- A definition stands in the file of a path. -/
def Stands (sources : List (String × String)) (path : String) (x : Definition) : Prop :=
  ∃ text d, (path, text) ∈ sources ∧ Document.parse text = .ok d ∧ x ∈ d.definitions

/-- Whatever a project defines stands in one of its files. -/
structure ComesFrom (p : Project) (sources : List (String × String)) : Prop where
  /-- Operations bear their names and stand in their files. -/
  operations : ∀ o ∈ p.operations,
    o.operation.name = some o.name ∧ Stands sources o.path (.operation o.operation)
  /-- Fragments stand in their files. -/
  fragments : ∀ f ∈ p.fragments, Stands sources f.path (.fragment f.fragment)

variable {sources : List (String × String)} {p q : Project} {path : String}

theorem ComesFrom.define (h : p.ComesFrom sources) {x : Definition} (hx : Stands sources path x)
    (hq : (p.define path x).outcome = .ok q) : q.ComesFrom sources := by
  cases x with
  | operation op =>
    simp only [Project.define] at hq
    split at hq
    · cases hq
      exact h
    · rename_i name hname
      split at hq
      · cases hq
      · cases hq
        refine ⟨fun o ho => ?_, h.fragments⟩
        obtain ho | rfl := by simpa using ho
        · exact h.operations o ho
        · exact ⟨hname, hx⟩
  | fragment f =>
    simp only [Project.define] at hq
    split at hq
    · cases hq
    · cases hq
      refine ⟨h.operations, fun g hg => ?_⟩
      obtain hg | rfl := by simpa using hg
      · exact h.fragments g hg
      · exact hx

theorem ComesFrom.defineAll (h : p.ComesFrom sources) {xs : List Definition}
    (hxs : ∀ x ∈ xs, Stands sources path x) (hq : (p.defineAll path xs).outcome = .ok q) :
    q.ComesFrom sources := by
  induction xs generalizing p with
  | nil =>
    cases hq
    exact h
  | cons x xs ih =>
    obtain ⟨hx, hxs⟩ := List.forall_mem_cons.mp hxs
    obtain ⟨p', hp', hq⟩ := Log.Account.outcome_bind_eq_ok_iff.mp hq
    exact ih (h.define hx hp') hxs hq

theorem ComesFrom.addSource (h : p.ComesFrom sources) {text : String}
    (hs : (path, text) ∈ sources) (hq : (p.addSource path text).outcome = .ok q) :
    q.ComesFrom sources := by
  unfold Project.addSource at hq
  split at hq
  · cases hq
  · rename_i d hd
    rw [Log.Account.outcome_note_bind] at hq
    obtain ⟨p', hp', hq⟩ := Log.Account.outcome_bind_eq_ok_iff.mp hq
    cases hq
    have h' := h.defineAll (fun x hx => ⟨text, d, hs, hd, hx⟩) hp'
    exact ⟨h'.operations, h'.fragments⟩

theorem ComesFrom.addSources (h : p.ComesFrom sources) {more : List (String × String)}
    (hs : more ⊆ sources) (hq : (p.addSources more).outcome = .ok q) : q.ComesFrom sources := by
  induction more generalizing p with
  | nil =>
    cases hq
    exact h
  | cons source more ih =>
    obtain ⟨path, text⟩ := source
    obtain ⟨p', hp', hq⟩ := Log.Account.outcome_bind_eq_ok_iff.mp hq
    rw [List.cons_subset] at hs
    exact ih (h.addSource hs.1 hp') hs.2 hq

/-- What the project of some files defines stands in them. -/
theorem comesFrom_of_ofSources (hp : (ofSources sources).outcome = .ok p) :
    p.ComesFrom sources := by
  have he : empty.ComesFrom sources := ⟨by simp [empty], by simp [empty]⟩
  exact he.addSources (List.Subset.refl sources) hp

/-- A definition that stands in a file can be written. -/
theorem Stands.wellSpelled {x : Definition} (h : Stands sources path x) : x.WellSpelled := by
  obtain ⟨text, d, -, hd, hx⟩ := h
  exact (Document.wellFormed_of_parse hd).wellSpelled x hx

/-- The bundles of a project from files can be written. -/
theorem ComesFrom.wellSpelled_bundle (h : p.ComesFrom sources) {o : SourcedOperation}
    (ho : o ∈ p.operations) {d : Document} (hd : p.bundle o = .ok d) :
    ∀ x ∈ d.definitions, x.WellSpelled := by
  unfold bundle at hd
  simp only at hd
  split at hd
  · cases hd
  · cases hd
    refine List.forall_mem_cons.2 ⟨(h.operations o ho).2.wellSpelled, ?_⟩
    refine List.forall_mem_map.2 fun f hf => ?_
    obtain ⟨g, hg, rfl⟩ := List.mem_map.mp (List.mem_filter.mp hf).1
    exact (h.fragments g hg).wellSpelled

theorem entries_of_insertOperation {set result : OperationSet} {name : String} {d : Document}
    (h : insertOperation set name d = .ok result) :
    result.entries = set.entries ++ [(name, d)] := by
  unfold insertOperation at h
  split at h
  · rename_i hi
    cases h
    exact OperationSet.entries_insert? hi
  · cases h

/-- Every entry of an operation set is what the server is to see of a bundle, or was there
before. -/
theorem exists_bundle_of_mem_bundles {s : Settings} {os : List SourcedOperation}
    {set result : OperationSet} (hr : (p.bundles s set os).outcome = .ok result)
    {entry : String × Document} (he : entry ∈ result.entries) :
    entry ∈ set.entries ∨ ∃ o ∈ os, o.name = entry.1 ∧
      ∃ d, p.bundle o = .ok d ∧ entry.2 = serverSide s d := by
  induction os generalizing set with
  | nil =>
    cases hr
    exact .inl he
  | cons o os ih =>
    unfold bundles at hr
    obtain ⟨d, hd, hr⟩ := Log.Account.outcome_bind_eq_ok_iff.mp hr
    simp only at hr
    split at hr
    · rw [Log.Account.outcome_note_bind] at hr
      obtain h | ⟨o', ho', h⟩ := ih hr
      · exact .inl h
      · exact .inr ⟨o', List.mem_cons_of_mem _ ho', h⟩
    · obtain ⟨set', hset, hr⟩ := Log.Account.outcome_bind_eq_ok_iff.mp hr
      have hentries := entries_of_insertOperation hset
      obtain h | ⟨o', ho', h⟩ := ih hr
      · rw [hentries, List.mem_append, List.mem_singleton] at h
        obtain h | rfl := h
        · exact .inl h
        · exact .inr ⟨o, List.mem_cons_self, rfl, d, hd, rfl⟩
      · exact .inr ⟨o', List.mem_cons_of_mem _ ho', h⟩

/-- Every entry of a project's operation set can be written. -/
theorem wellSpelled_of_mem_operationSet (hp : (ofSources sources).outcome = .ok p) {s : Settings}
    {set : OperationSet} (hset : (p.operationSet s).outcome = .ok set) {name : String}
    {d : Document} (hd : (name, d) ∈ set.entries) : ∀ x ∈ d.definitions, x.WellSpelled := by
  obtain h | ⟨o, ho, -, b, hb, hd⟩ := exists_bundle_of_mem_bundles hset hd
  · simp [OperationSet.empty] at h
  · obtain rfl : d = serverSide s b := hd
    exact wellSpelled_serverSide s ((comesFrom_of_ofSources hp).wellSpelled_bundle ho hb)

end Client.Project

end Safelist
