import Safelist.Proofs.Client.Erasing

/-!
# What the operation set of a project holds

Every operation of a project has a bundle, and the operation set holds exactly
those bundles, as the server is to see them, of which something is left. The others
are named in the log. So every entry is a tight bundle of the operation that it is
named after, and every operation is either kept or skipped.
-/

namespace Safelist

/-- Work on an outcome that is there needs no entries. -/
theorem Log.Account.ofExcept_ok_bind {ε α β : Type} (a : α) (next : α → Account ε β) :
    (ofExcept (.ok a) >>= next) = next a :=
  rfl

/-- What is found under a name is what was inserted under it. -/
theorem OperationSet.get?_eq_some_iff {set : OperationSet} {name : String} {d : Document} :
    set.get? name = some d ↔ (name, d) ∈ set.entries := by
  rw [get?, Option.map_eq_some_iff]
  constructor
  · rintro ⟨⟨_, _⟩, he, rfl⟩
    obtain ⟨hm, rfl⟩ := (find?_key_eq_some_iff set.nodup).mp he
    exact hm
  · exact fun hm => ⟨(name, d), (find?_key_eq_some_iff set.nodup).mpr ⟨hm, rfl⟩, rfl⟩

namespace Client.Project

variable {p : Project} {s : Settings} {xs : List Definition}

/-- The fragments of a project that an operation uses. -/
def usedBy (p : Project) (op : Operation) : List Fragment :=
  p.fragmentList.filter fun f => (reach p.fragmentList op.selections).names.contains f.name

/-- An operation has a bundle when everything it uses is there, and the bundle holds the fragments
that it uses. -/
theorem bundle_eq_ok_iff {o : SourcedOperation} {d : Document} :
    p.bundle o = .ok d ↔
      (∀ n, Reachable p.fragmentList o.operation.selections n →
        n ∈ p.fragmentList.map Fragment.name) ∧ d = .bundle o.operation (p.usedBy o.operation) := by
  have hm : (reach p.fragmentList o.operation.selections).missing = [] ↔
      ∀ n, Reachable p.fragmentList o.operation.selections n →
        n ∈ p.fragmentList.map Fragment.name := by
    simp only [List.eq_nil_iff_forall_not_mem, mem_missing_reach, not_and,
      ← isSome_fragmentNamed?_iff, Option.isSome_iff_ne_none, ne_eq]
  rw [← hm, bundle]
  split
  · simp [*]
  · simp [*, usedBy, Document.bundle, eq_comm]

/-- The bundle of an operation is tight, with its fragments in the order of the project. -/
theorem Holds.exists_bundle (h : p.Holds xs) (hxs : ∀ x ∈ xs, FilledSet x.selections)
    {o : SourcedOperation} (ho : o ∈ p.operations) {d : Document} (hd : p.bundle o = .ok d) :
    ∃ fs, d = .bundle o.operation fs ∧
      Tight o.name (p.fragmentList.map Fragment.name) o.operation fs := by
  obtain ⟨hknown, rfl⟩ := bundle_eq_ok_iff.mp hd
  have hop : ∀ s ∈ o.operation.selections, s.Filled := by
    have hm : o.operation ∈ p.operations.map SourcedOperation.operation := List.mem_map_of_mem ho
    rw [h.operations] at hm
    obtain ⟨x, hx, hxo⟩ := List.mem_filterMap.mp (List.mem_filter.mp hm).1
    cases x with
    | operation op =>
      cases hxo
      exact (hxs _ hx).filled
    | fragment f => cases hxo
  have hfs : ∀ f ∈ p.fragmentList, FilledSet f.selections := by
    intro f hf
    rw [h.fragments] at hf
    obtain ⟨x, hx, hxf⟩ := List.mem_filterMap.mp hf
    cases x with
    | operation op => cases hxf
    | fragment g =>
      cases hxf
      exact hxs _ hx
  exact ⟨_, rfl, tight_filter_reach (h.named o ho) (List.Sublist.refl _) h.fragmentNames hop hfs
    hknown⟩

/-- An operation is kept as a document: its bundle, as the server is to see it, has something
left. -/
def Keeps (p : Project) (s : Settings) (o : SourcedOperation) (d : Document) : Prop :=
  ∃ b, p.bundle o = .ok b ∧ d = serverSide s b ∧ isClientOnly d = false

/-- An operation is skipped: its bundle, as the server is to see it, has nothing left. -/
def Skips (p : Project) (s : Settings) (o : SourcedOperation) : Prop :=
  ∃ b, p.bundle o = .ok b ∧ isClientOnly (serverSide s b) = true

/-- An operation that is kept is not skipped. -/
theorem not_skips {o : SourcedOperation} {d : Document} (h : p.Keeps s o d) : ¬p.Skips s o := by
  obtain ⟨b, hb, rfl, hc⟩ := h
  rintro ⟨b', hb', hc'⟩
  cases hb.symm.trans hb'
  rw [hc] at hc'
  cases hc'

/-- An operation is kept as one document only. -/
theorem Keeps.unique {o : SourcedOperation} {d d' : Document} (h : p.Keeps s o d)
    (h' : p.Keeps s o d') : d = d' := by
  obtain ⟨b, hb, rfl, -⟩ := h
  obtain ⟨b', hb', rfl, -⟩ := h'
  cases hb.symm.trans hb'
  rfl

/-- The entry of the log that names an operation that is skipped. -/
def skipEntry (o : SourcedOperation) : Log.Entry :=
  Log.Event.clientOnlyOperationSkipped.warning [("operation", o.name), ("path", o.path)]

section Bundles

variable {set result : OperationSet} {o : SourcedOperation} {os : List SourcedOperation}

/-- The next operation is skipped, which is logged, or kept at the end of the set, which is
not. -/
theorem bundles_cons (hr : (p.bundles s set (o :: os)).outcome = .ok result) :
    (p.Skips s o ∧ (p.bundles s set os).outcome = .ok result ∧
      (p.bundles s set (o :: os)).entries = skipEntry o :: (p.bundles s set os).entries) ∨
    ∃ d set', p.Keeps s o d ∧ set'.entries = set.entries ++ [(o.name, d)] ∧
      (p.bundles s set' os).outcome = .ok result ∧
      (p.bundles s set (o :: os)).entries = (p.bundles s set' os).entries := by
  rw [bundles] at hr ⊢
  cases hb : p.bundle o with
  | error e =>
    rw [hb] at hr
    cases hr
  | ok b =>
    rw [hb] at hr
    rw [Log.Account.ofExcept_ok_bind] at hr ⊢
    simp only at hr ⊢
    split at hr
    · rename_i hc
      rw [if_pos hc]
      exact .inl ⟨⟨b, hb, hc⟩, hr, rfl⟩
    · rename_i hc
      rw [if_neg hc]
      cases hset : insertOperation set o.name (serverSide s b) with
      | error e =>
        rw [hset] at hr
        cases hr
      | ok set' =>
        rw [hset, Log.Account.ofExcept_ok_bind] at hr
        exact .inr ⟨_, set', ⟨b, hb, rfl, by simpa using hc⟩, entries_of_insertOperation hset,
          hr, rfl⟩

/-- A set that is made of bundles holds the operations that are kept, besides what was there
before, and the log names the operations that are skipped. -/
theorem mem_bundles_iff (hr : (p.bundles s set os).outcome = .ok result) :
    (∀ entry, entry ∈ result.entries ↔ entry ∈ set.entries ∨
      ∃ o ∈ os, p.Keeps s o entry.2 ∧ o.name = entry.1) ∧
    (∀ note, note ∈ (p.bundles s set os).entries ↔ ∃ o ∈ os, p.Skips s o ∧ note = skipEntry o) ∧
    ∀ o ∈ os, p.Skips s o ∨ ∃ d, p.Keeps s o d := by
  induction os generalizing set with
  | nil =>
    cases hr
    simp [bundles]
  | cons o os ih =>
    simp only [List.forall_mem_cons, List.exists_mem_cons_iff]
    obtain ⟨hs, hr, hlog⟩ | ⟨d, set', hk, hset, hr, hlog⟩ := bundles_cons hr
    · obtain ⟨hset, hnote, hall⟩ := ih hr
      have hno : ∀ d, ¬p.Keeps s o d := fun d hk => not_skips hk hs
      refine ⟨fun entry => ?_, fun note => ?_, .inl hs, hall⟩
      · simp [hset, hno]
      · simp [hlog, hnote, hs]
    · obtain ⟨hset', hnote, hall⟩ := ih hr
      have hno : ¬p.Skips s o := not_skips hk
      have honly : ∀ d', p.Keeps s o d' ↔ d' = d :=
        fun d' => ⟨fun h => h.unique hk, fun h => h ▸ hk⟩
      refine ⟨fun entry => ?_, fun note => ?_, .inr ⟨d, hk⟩, hall⟩
      · obtain ⟨name, d'⟩ := entry
        rw [hset', hset, List.mem_append, List.mem_singleton, Prod.mk.injEq, or_assoc, honly]
        simp only [and_comm, eq_comm]
      · simp [hlog, hnote, hno]

end Bundles

/-- Every entry of a project's operation set is a tight bundle, and its operation is not
empty. -/
theorem Holds.exists_of_mem_operationSet (h : p.Holds xs)
    (hxs : ∀ x ∈ xs, FilledSet x.selections) {set : OperationSet}
    (hset : (p.operationSet s).outcome = .ok set) {name : String} {d : Document}
    (hd : (name, d) ∈ set.entries) :
    ∃ op fs, d = .bundle op fs ∧ Tight name (p.fragmentList.map Fragment.name) op fs ∧
      op.selections ≠ [] := by
  obtain hd | ⟨o, ho, ⟨b, hb, rfl, hc⟩, rfl⟩ := ((mem_bundles_iff hset).1 (name, d)).mp hd
  · simp [OperationSet.empty] at hd
  · obtain ⟨fs, rfl, ht⟩ := h.exists_bundle hxs ho hb
    obtain ⟨op', fs', hs, ht'⟩ := ht.exists_serverSide h.fragmentNames s
    refine ⟨op', fs', hs, ht', ?_⟩
    simpa [hs, isClientOnly] using hc

/-- The log names an operation as skipped. -/
def LogsSkip (p : Project) (s : Settings) (name : String) : Prop :=
  ∃ path, Log.Event.clientOnlyOperationSkipped.warning [("operation", name), ("path", path)] ∈
    (p.operationSet s).entries

/-- An operation is either skipped and named in the log, or kept and found in the set. -/
theorem Holds.skipped_or_kept (h : p.Holds xs) {set : OperationSet}
    (hset : (p.operationSet s).outcome = .ok set) {o : SourcedOperation} (ho : o ∈ p.operations) :
    (p.Skips s o ∧ p.LogsSkip s o.name ∧ set.get? o.name = none) ∨
      ∃ d, p.Keeps s o d ∧ ¬p.LogsSkip s o.name ∧ set.get? o.name = some d := by
  obtain ⟨hmem, hlog, hall⟩ := mem_bundles_iff hset
  have hone : ∀ o' ∈ p.operations, o'.name = o.name → o' = o := by
    intro o' ho' hname
    have hf := (find?_key_eq_some_iff h.operationNames).mpr ⟨ho', hname⟩
    have hf' := (find?_key_eq_some_iff h.operationNames).mpr ⟨ho, rfl⟩
    exact Option.some.inj (hf.symm.trans hf')
  obtain hs | ⟨d, hk⟩ := hall o ho
  · refine .inl ⟨hs, ⟨o.path, (hlog _).mpr ⟨o, ho, hs, rfl⟩⟩, ?_⟩
    rw [Option.eq_none_iff_forall_ne_some]
    intro d hd
    obtain hd | ⟨o', ho', hk, hname⟩ := (hmem _).mp (OperationSet.get?_eq_some_iff.mp hd)
    · simp [OperationSet.empty] at hd
    · cases hone o' ho' hname
      exact not_skips hk hs
  · have hentry := (hmem (o.name, d)).mpr (.inr ⟨o, ho, hk, rfl⟩)
    refine .inr ⟨d, hk, ?_, OperationSet.get?_eq_some_iff.mpr hentry⟩
    rintro ⟨path, hn⟩
    obtain ⟨o', ho', hs, he⟩ := (hlog _).mp hn
    have hname : o'.name = o.name := by
      simp only [skipEntry, Log.Event.warning, Log.Entry.mk.injEq, List.cons.injEq,
        Prod.mk.injEq, true_and] at he
      exact he.1.symm
    cases hone o' ho' hname
    exact not_skips hk hs

/-- Files have an operation set of which something is known, if that much comes out of making
it. -/
theorem exists_operationSet_of_map {α : Type} {sources : List (String × String)}
    {f : OperationSet → α} {a : α} {q : Project → OperationSet → Prop}
    (h : ((ofSources sources).outcome.bind fun p => (p.operationSet s).outcome).map f = .ok a)
    (hq : ∀ p set, (ofSources sources).outcome = .ok p → (p.operationSet s).outcome = .ok set →
      f set = a → q p set) :
    ∃ p set, (ofSources sources).outcome = .ok p ∧ (p.operationSet s).outcome = .ok set ∧
      f set = a ∧ q p set := by
  cases hp : (ofSources sources).outcome with
  | error e => simp [hp, Except.bind, Except.map] at h
  | ok p =>
    cases hset : (p.operationSet s).outcome with
    | error e => simp [hp, hset, Except.bind, Except.map] at h
    | ok set =>
      have hf : f set = a := by simpa [hp, hset, Except.bind, Except.map] using h
      exact ⟨p, set, rfl, hset, hf, hq p set hp hset hf⟩

end Client.Project

end Safelist
