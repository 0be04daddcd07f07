import Safelist.Proofs.Client.Merging
import Safelist.Proofs.Document.Layers
import Safelist.Proofs.Machine.Work

/-!
# The operation set loses nothing

Operations are added to the set one by one. One that uses a name which no file
defines ends the work. Any other is kept under its name or named in the log, and
since names do not repeat in a project, none is refused by the set.
-/

namespace Safelist.Client.Project

variable {p : Project} {s : Settings} {set : OperationSet} {o : SourcedOperation}
  {os : List SourcedOperation} {xs : List Definition} {e : ProjectError}

/-- An operation as the server is to see it, with the fragments that it uses. -/
def seenByServer (p : Project) (s : Settings) (o : SourcedOperation) : Document :=
  serverSide s (.bundle o.operation (p.usedBy o.operation))

/-- What is left in an operation as the server is to see it. -/
def rootLeft (p : Project) (s : Settings) (o : SourcedOperation) : List Selection :=
  (p.seenByServer s o).operations.flatMap Operation.selections

/-- Everything that an operation uses, directly or through fragments, is there. -/
def Resolves (p : Project) (o : SourcedOperation) : Prop :=
  ∀ name, Reachable p.fragmentList o.operation.selections name →
    ∃ f ∈ p.fragmentList, f.name = name

theorem resolves_iff : p.Resolves o ↔ ∀ name, Reachable p.fragmentList o.operation.selections name →
    name ∈ p.fragmentList.map Fragment.name := by
  simp only [Resolves, List.mem_map]

/-- An operation that resolves has a bundle. -/
theorem Resolves.bundle_eq (h : p.Resolves o) :
    p.bundle o = .ok (.bundle o.operation (p.usedBy o.operation)) :=
  bundle_eq_ok_iff.mpr ⟨resolves_iff.mp h, rfl⟩

/-- The error for an operation names the first name it uses, breadth first, that no file
defines. -/
theorem bundle_eq_error_iff : p.bundle o = .error e ↔ ∃ name,
    IsFirstUnknown p.fragmentList o.operation.selections name ∧
      e = .unknownFragment o.name name := by
  simp only [← head?_missing_reach_eq_some_iff, bundle]
  cases (reach p.fragmentList o.operation.selections).missing with
  | nil => simp
  | cons first rest => simp [eq_comm]

/-- An operation resolves unless it uses a first name that no file defines. -/
theorem resolves_or_bundle_eq_error (p : Project) (o : SourcedOperation) :
    p.Resolves o ∨ ∃ e, p.bundle o = .error e := by
  cases hb : p.bundle o with
  | ok d => exact .inl (resolves_iff.mpr (bundle_eq_ok_iff.mp hb).1)
  | error e => exact .inr ⟨e, rfl⟩

/-- An operation that resolves is still one for the server, under its name. -/
theorem Holds.exists_seenByServer (h : p.Holds xs) (hxs : ∀ x ∈ xs, FilledSet x.selections)
    (ho : o ∈ p.operations) (hr : p.Resolves o) : ∃ op fs, p.seenByServer s o = .bundle op fs ∧
      Tight o.name (p.fragmentList.map Fragment.name) op fs ∧
      p.rootLeft s o = op.selections := by
  obtain ⟨fs, hd, ht⟩ := h.exists_bundle hxs ho hr.bundle_eq
  obtain ⟨op', fs', hs, ht'⟩ := ht.exists_serverSide h.fragmentNames s
  rw [← hd] at hs
  refine ⟨op', fs', hs, ht', ?_⟩
  rw [rootLeft, seenByServer, hs, Document.operations_bundle, List.flatMap_singleton]

/-- Nothing is left in an operation just when it is one for the client only. -/
theorem Holds.isClientOnly_seenByServer (h : p.Holds xs)
    (hxs : ∀ x ∈ xs, FilledSet x.selections) (ho : o ∈ p.operations) (hr : p.Resolves o) :
    isClientOnly (p.seenByServer s o) = (p.rootLeft s o).isEmpty := by
  obtain ⟨op, fs, hd, -, hroot⟩ := h.exists_seenByServer (s := s) hxs ho hr
  rw [hroot, hd, isClientOnly, Document.operations_bundle]
  rfl

/-- The work ends at an operation without a bundle. -/
theorem bundles_cons_error (hb : p.bundle o = .error e) :
    (p.bundles s set (o :: os)).outcome = .error e := by
  rw [bundles, hb]
  rfl

/-- An operation of which nothing is left is named in the log. -/
theorem bundles_cons_skip (hr : p.Resolves o) (hc : isClientOnly (p.seenByServer s o) = true) :
    p.bundles s set (o :: os) = ⟨skipEntry o :: (p.bundles s set os).entries,
      (p.bundles s set os).outcome⟩ := by
  rw [bundles, hr.bundle_eq, Log.Account.ofExcept_ok_bind]
  exact if_pos hc

/-- Any other operation joins the set when its name is new there. -/
theorem bundles_cons_keep (hr : p.Resolves o) (hc : isClientOnly (p.seenByServer s o) = false)
    (hn : o.name ∉ set.names) (os : List SourcedOperation) :
    ∃ set', set'.entries = set.entries ++ [(o.name, p.seenByServer s o)] ∧
      p.bundles s set (o :: os) = p.bundles s set' os := by
  have hi : set.insert? o.name (p.seenByServer s o) ≠ none :=
    fun hi => hn (OperationSet.insert?_eq_none_iff.mp hi)
  obtain ⟨set', hset⟩ := Option.ne_none_iff_exists'.mp hi
  refine ⟨set', OperationSet.entries_insert? hset, ?_⟩
  rw [bundles, hr.bundle_eq, Log.Account.ofExcept_ok_bind]
  have hinsert : insertOperation set o.name (p.seenByServer s o) = .ok set' := by
    rw [insertOperation, hset]
  refine (if_neg (by simpa [seenByServer] using hc)).trans ?_
  exact congrArg (fun r => Log.Account.ofExcept r >>= fun set => p.bundles s set os) hinsert

/-- Operations that resolve are all taken in before the work goes on: those of which something is
left join the set, and the others are named in the log. -/
theorem Holds.bundles_append (h : p.Holds xs) (hxs : ∀ x ∈ xs, FilledSet x.selections)
    (hos : ∀ o ∈ os, o ∈ p.operations ∧ p.Resolves o)
    (hn : (set.names ++ os.map SourcedOperation.name).Nodup) (after : List SourcedOperation) :
    ∃ set', set'.entries = set.entries ++ (os.filter fun o => !(p.rootLeft s o).isEmpty).map
        (fun o => (o.name, p.seenByServer s o)) ∧
      p.bundles s set (os ++ after) =
        ⟨(os.filter fun o => (p.rootLeft s o).isEmpty).map skipEntry ++
          (p.bundles s set' after).entries, (p.bundles s set' after).outcome⟩ := by
  induction os generalizing set with
  | nil => exact ⟨set, (List.append_nil _).symm, rfl⟩
  | cons o os ih =>
    obtain ⟨⟨ho, hr⟩, hos⟩ := List.forall_mem_cons.mp hos
    have hc := h.isClientOnly_seenByServer (s := s) hxs ho hr
    rw [List.map_cons] at hn
    cases hempty : (p.rootLeft s o).isEmpty with
    | true =>
      obtain ⟨set', hentries, hrest⟩ := ih hos (hn.sublist
        ((List.sublist_cons_self _ _).append_left set.names))
      refine ⟨set', ?_, ?_⟩
      · rw [hentries]
        simp [hempty]
      · rw [List.cons_append, bundles_cons_skip hr (hc.trans hempty), hrest]
        simp [hempty]
    | false =>
      have hnew : o.name ∉ set.names := fun hm =>
        (List.nodup_append.mp hn).2.2 _ hm _ List.mem_cons_self rfl
      obtain ⟨set₁, hset, hstep⟩ := bundles_cons_keep hr (hc.trans hempty) hnew (os ++ after)
      have hnames : set₁.names = set.names ++ [o.name] := by simp [OperationSet.names, hset]
      have hn₁ : (set₁.names ++ os.map SourcedOperation.name).Nodup := by simpa [hnames] using hn
      obtain ⟨set', hentries, hrest⟩ := ih hos hn₁
      refine ⟨set', ?_, ?_⟩
      · rw [hentries, hset]
        simp [hempty]
      · rw [List.cons_append, hstep, hrest]
        simp [hempty]

/-- Either all operations resolve, or there is a first one that does not. -/
theorem resolve_or_exists_first (p : Project) (os : List SourcedOperation) :
    (∀ o ∈ os, p.Resolves o) ∨ ∃ before o after e, os = before ++ o :: after ∧
      (∀ o ∈ before, p.Resolves o) ∧ p.bundle o = .error e := by
  induction os with
  | nil => exact .inl (by simp)
  | cons o os ih =>
    obtain hr | ⟨e, he⟩ := p.resolves_or_bundle_eq_error o
    · obtain hos | ⟨before, o', after, e, rfl, hb, he⟩ := ih
      · exact .inl (List.forall_mem_cons.mpr ⟨hr, hos⟩)
      · exact .inr ⟨o :: before, o', after, e, rfl, List.forall_mem_cons.mpr ⟨hr, hb⟩, he⟩
    · exact .inr ⟨[], o, os, e, rfl, by simp, he⟩

/-- An operation set comes out just when all operations resolve, and then it and the log are
these. -/
theorem Holds.operationSet_eq (h : p.Holds xs) (hxs : ∀ x ∈ xs, FilledSet x.selections)
    (hos : ∀ o ∈ p.operations, p.Resolves o) : ∃ result,
      result.entries = (p.operations.filter fun o => !(p.rootLeft s o).isEmpty).map
        (fun o => (o.name, p.seenByServer s o)) ∧
      p.operationSet s =
        ⟨(p.operations.filter fun o => (p.rootLeft s o).isEmpty).map skipEntry, .ok result⟩ := by
  have hn : (OperationSet.empty.names ++ p.operations.map SourcedOperation.name).Nodup :=
    h.operationNames
  obtain ⟨result, hentries, hall⟩ :=
    h.bundles_append (s := s) hxs (fun o ho => ⟨ho, hos o ho⟩) hn []
  rw [List.append_nil] at hall
  refine ⟨result, hentries, ?_⟩
  rw [operationSet, hall, bundles, Log.Account.entries_pure, List.append_nil,
    Log.Account.outcome_pure]

/-- The first operation that does not resolve is the one that is reported. -/
theorem Holds.operationSet_outcome_of_first (h : p.Holds xs)
    (hxs : ∀ x ∈ xs, FilledSet x.selections) {before after : List SourcedOperation}
    (hos : p.operations = before ++ o :: after) (hb : ∀ o ∈ before, p.Resolves o)
    (he : p.bundle o = .error e) : (p.operationSet s).outcome = .error e := by
  have hnames := h.operationNames
  rw [hos, List.map_append] at hnames
  have hn : (OperationSet.empty.names ++ before.map SourcedOperation.name).Nodup :=
    (List.nodup_append.mp hnames).1
  obtain ⟨set', -, hall⟩ := h.bundles_append (s := s) hxs
    (fun o ho => ⟨hos ▸ List.mem_append_left _ ho, hb o ho⟩) hn (o :: after)
  rw [operationSet, hos, hall]
  exact bundles_cons_error he

/-- Making an operation set fails with the first operation that does not resolve. -/
theorem Holds.operationSet_outcome_eq_error_iff (h : p.Holds xs)
    (hxs : ∀ x ∈ xs, FilledSet x.selections) :
    (p.operationSet s).outcome = .error e ↔ ∃ before o after,
      p.operations = before ++ o :: after ∧ (∀ o' ∈ before, p.Resolves o') ∧
        p.bundle o = .error e := by
  constructor
  · intro he
    obtain hall | ⟨before, o, after, e', hos, hb, he'⟩ := p.resolve_or_exists_first p.operations
    · obtain ⟨result, -, heq⟩ := h.operationSet_eq (s := s) hxs hall
      rw [heq] at he
      cases he
    · cases (h.operationSet_outcome_of_first hxs hos hb he').symm.trans he
      exact ⟨before, o, after, hos, hb, he'⟩
  · rintro ⟨before, o, after, hos, hb, he⟩
    exact h.operationSet_outcome_of_first hxs hos hb he

/-- Making an operation set fails just when some operation does not resolve. -/
theorem Holds.exists_operationSet_error_iff (h : p.Holds xs)
    (hxs : ∀ x ∈ xs, FilledSet x.selections) :
    (∃ e, (p.operationSet s).outcome = .error e) ↔ ∃ o ∈ p.operations, ¬p.Resolves o := by
  simp only [h.operationSet_outcome_eq_error_iff hxs]
  constructor
  · rintro ⟨e, before, o, after, hos, -, he⟩
    refine ⟨o, hos ▸ List.mem_append_right _ List.mem_cons_self, fun hr => ?_⟩
    rw [hr.bundle_eq] at he
    cases he
  · rintro ⟨o, ho, hr⟩
    obtain hall | ⟨before, o', after, e, hos, hb, he⟩ := p.resolve_or_exists_first p.operations
    · exact absurd (hall o ho) hr
    · exact ⟨e, before, o', after, hos, hb, he⟩

/-- Making the operation set of a project from files fails with the first operation that uses a name
which no file defines, and reports the first such name that it uses, breadth first. Otherwise each
operation is seen by the server under its name: the set holds those of which something is left, in
order, and the log names the others, in order and once each. -/
theorem operationSet_loses_nothing {sources : List (String × String)}
    (hp : (ofSources sources).outcome = .ok p) (s : Settings) :
    ((∃ e, (p.operationSet s).outcome = .error e) ↔ ∃ o ∈ p.operations, ∃ name,
      Reachable (fragmentsOf sources) o.operation.selections name ∧
        ∀ f ∈ fragmentsOf sources, f.name ≠ name) ∧
    (∀ e, (p.operationSet s).outcome = .error e ↔ ∃ before o after name,
      p.operations = before ++ o :: after ∧ e = .unknownFragment o.name name ∧
        IsFirstUnknown (fragmentsOf sources) o.operation.selections name ∧
        ∀ o' ∈ before, ∀ name', Reachable (fragmentsOf sources) o'.operation.selections name' →
          ∃ f ∈ fragmentsOf sources, f.name = name') ∧
    ∀ set, (p.operationSet s).outcome = .ok set →
      (∀ o ∈ p.operations, ∃ op fs, p.seenByServer s o = .bundle op fs ∧
        op.name = some o.name ∧ p.rootLeft s o = op.selections) ∧
      set.names =
        (p.operations.filter fun o => !(p.rootLeft s o).isEmpty).map SourcedOperation.name ∧
      set.entries = (p.operations.filter fun o => !(p.rootLeft s o).isEmpty).map
        (fun o => (o.name, p.seenByServer s o)) ∧
      ∀ w : World, w.threshold.admits .warn →
        (Machine.tell (p.operationSet s) : ExceptT ProjectError Simulated OperationSet).run w =
          (.ok set, { w with complaints := w.complaints ++
            (p.operations.filter fun o => (p.rootLeft s o).isEmpty).map fun o =>
              Complaint.entry { severity := .warn, event := "CLIENT_ONLY_OPERATION_SKIPPED",
                                fields := [("operation", o.name), ("path", o.path)] } }) := by
  have hh := holds_of_ofSources hp
  have hfilled : ∀ x ∈ definitionsOf sources, FilledSet x.selections :=
    fun x hx => (wellFormed_of_mem_definitionsOf hx).2
  have hfs : p.fragmentList = fragmentsOf sources := hh.fragments
  have hresolves : ∀ o, p.Resolves o ↔ ∀ name,
      Reachable (fragmentsOf sources) o.operation.selections name →
        ∃ f ∈ fragmentsOf sources, f.name = name := fun o => by rw [Resolves, hfs]
  refine ⟨?_, fun e => ?_, fun set hset => ?_⟩
  · rw [hh.exists_operationSet_error_iff hfilled]
    simp only [hresolves, not_forall, not_exists, not_and, exists_prop, ne_eq]
  · rw [hh.operationSet_outcome_eq_error_iff hfilled]
    constructor
    · rintro ⟨before, o, after, hos, hb, he⟩
      obtain ⟨name, hfirst, rfl⟩ := bundle_eq_error_iff.mp he
      exact ⟨before, o, after, name, hos, rfl, hfs ▸ hfirst,
        fun o' ho' => (hresolves o').mp (hb o' ho')⟩
    · rintro ⟨before, o, after, name, hos, rfl, hfirst, hb⟩
      exact ⟨before, o, after, hos, fun o' ho' => (hresolves o').mpr (hb o' ho'),
        bundle_eq_error_iff.mpr ⟨name, hfs ▸ hfirst, rfl⟩⟩
  · have hall : ∀ o ∈ p.operations, p.Resolves o := by
      intro o ho
      by_contra hr
      obtain ⟨e, he⟩ := (hh.exists_operationSet_error_iff (s := s) hfilled).mpr ⟨o, ho, hr⟩
      rw [he] at hset
      cases hset
    obtain ⟨result, hentries, heq⟩ := hh.operationSet_eq (s := s) hfilled hall
    rw [heq] at hset
    obtain rfl := Except.ok.inj hset
    refine ⟨fun o ho => ?_, ?_, hentries, fun w hw => ?_⟩
    · obtain ⟨op, fs, hd, ht, hroot⟩ := hh.exists_seenByServer (s := s) hfilled ho (hall o ho)
      exact ⟨op, fs, hd, ht.named, hroot⟩
    · rw [OperationSet.names, hentries, List.map_map]
      rfl
    · have hadmits : ∀ entry ∈ (p.operations.filter fun o => (p.rootLeft s o).isEmpty).map
          skipEntry, w.threshold.admits entry.severity :=
        List.forall_mem_map.mpr fun o _ => hw
      rw [Machine.run_tell, heq, World.logged_of_admits hadmits, List.map_map]
      rfl

/-- One operation has something for the server and stays in the set. The other one, which is left to
the client alone, is named in the log. -/
theorem operationSet_loses_nothing_skipping : ∃ sources p set,
    sources = [("a.graphql", "query A { a @client } query B { b ...F } fragment F on T { f }")] ∧
      (ofSources sources).outcome = .ok p ∧ (p.operationSet {}).outcome = .ok set ∧
      set.names = ["B"] ∧ ∀ w : World, w.threshold.admits .warn →
        (Machine.tell (p.operationSet {}) : ExceptT ProjectError Simulated OperationSet).run w =
          (.ok set, { w with complaints := w.complaints ++
            [.entry { severity := .warn, event := "CLIENT_ONLY_OPERATION_SKIPPED",
                      fields := [("operation", "A"), ("path", "a.graphql")] }] }) := by
  have hrun : ((ofSources
      [("a.graphql", "query A { a @client } query B { b ...F } fragment F on T { f }")]).outcome.map
      fun p => ((p.operations.filter fun o => (p.rootLeft {} o).isEmpty).map fun o =>
          Complaint.entry { severity := .warn, event := "CLIENT_ONLY_OPERATION_SKIPPED",
                            fields := [("operation", o.name), ("path", o.path)] },
        (p.operationSet {}).outcome.map OperationSet.names)) =
      .ok ([.entry { severity := .warn, event := "CLIENT_ONLY_OPERATION_SKIPPED",
                     fields := [("operation", "A"), ("path", "a.graphql")] }], .ok ["B"]) := by
    decide +kernel
  cases hp : (ofSources
      [("a.graphql", "query A { a @client } query B { b ...F } fragment F on T { f }")]).outcome with
  | error e =>
    rw [hp] at hrun
    cases hrun
  | ok p =>
    rw [hp] at hrun
    obtain ⟨hskipped, hnames⟩ := Prod.mk.inj (Except.ok.inj hrun)
    cases hset : (p.operationSet {}).outcome with
    | error e =>
      rw [hset] at hnames
      cases hnames
    | ok set =>
      rw [hset] at hnames
      obtain ⟨-, -, -, hw⟩ := (operationSet_loses_nothing hp {}).2.2 set hset
      refine ⟨_, p, set, rfl, hp, hset, Except.ok.inj hnames, fun w hadmits => ?_⟩
      rw [hw w hadmits, hskipped]

end Safelist.Client.Project
