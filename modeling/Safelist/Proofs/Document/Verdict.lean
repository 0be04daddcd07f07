import Safelist.Proofs.Document.BreadthFirst
import Safelist.Proofs.Document.RoundTrip

/-!
# What the check reports

The check looks at the operations, at one fragment after another, at the operation
and last at what the operation uses, and it reports the first fault in this order.
It lets exactly those documents through in which there is none. Fragments that the
operation does not use are looked at too, but not for what they use.
-/

namespace Safelist

/-- Fragments without a fault: their names differ, and no selection set in them is empty. -/
structure Faultless (fs : List Fragment) : Prop where
  /-- The names differ. -/
  nodup : (fs.map Fragment.name).Nodup
  /-- No selection set is empty. -/
  filled : ∀ f ∈ fs, FilledSet f.selections

/-- What is wrong with a fragment that stands behind fragments of these names. -/
inductive Fragment.Fault (seen : List String) (f : Fragment) : DocumentError → Prop
  /-- Its name has been seen before. -/
  | repeated (h : f.name ∈ seen) : Fault seen f (.duplicateFragment f.name)
  /-- Its name is new, and this way leads to the first empty selection set in it. -/
  | empty {path : List String} (hn : f.name ∉ seen) (h : IsFirstEmpty f.selections path) :
    Fault seen f (.emptySelectionSet f.label path)

/-- A name that no fragment has is used, directly or not, and no other such name is nearer. -/
structure IsNearestUnknown (fragments : List Fragment) (set : List Selection) (name : String) :
    Prop where
  /-- A chain of uses leads to it. -/
  used : ∃ n, Chain fragments set n name
  /-- No fragment has the name. -/
  unknown : ∀ f ∈ fragments, f.name ≠ name
  /-- No shorter chain leads to another such name. -/
  nearest : ∀ other, (∃ n, Chain fragments set n other) → (∀ f ∈ fragments, f.name ≠ other) →
    distance fragments set name ≤ distance fragments set other

/-- The first fault of a document. -/
inductive Document.FirstFault (d : Document) : DocumentError → Prop
  /-- There is no operation. -/
  | noOperation (h : d.operations = []) : FirstFault d .noOperation
  /-- There are several operations. -/
  | multipleOperations (h : 1 < d.operations.length) :
    FirstFault d (.multipleOperations d.operations.length)
  /-- There is one operation, and this fragment is the first at fault. -/
  | inFragment {op : Operation} {before after : List Fragment} {f : Fragment} {e : DocumentError}
    (hop : d.operations = [op]) (hfs : d.fragments = before ++ f :: after)
    (hbefore : Faultless before) (h : f.Fault (before.map Fragment.name) e) : FirstFault d e
  /-- No fragment is at fault, and this way leads to the first empty selection set of the
  operation. -/
  | inOperation {op : Operation} {path : List String} (hop : d.operations = [op])
    (hfs : Faultless d.fragments) (h : IsFirstEmpty op.selections path) :
    FirstFault d (.emptySelectionSet op.label path)
  /-- No selection set is empty, but a fragment is used that is not there. -/
  | unknownFragment {op : Operation} {name : String} (hop : d.operations = [op])
    (hfs : Faultless d.fragments) (hset : FilledSet op.selections)
    (h : IsNearestUnknown d.fragments op.selections name) : FirstFault d (.unknownFragment name)

theorem checkSelections_eq_error_iff {owner : String} {set : List Selection}
    {e : DocumentError} : checkSelections owner set = .error e ↔
      ∃ path, IsFirstEmpty set path ∧ e = .emptySelectionSet owner path := by
  simp only [← setEmptyPath?_eq_some_iff, checkSelections]
  cases Selection.setEmptyPath? set <;> simp [eq_comm]

/-- Whether a fragment is at fault does not depend on the order in which names are seen. -/
theorem Fragment.Fault.of_mem_iff {seen seen' : List String} {f : Fragment} {e : DocumentError}
    (h : ∀ name, name ∈ seen ↔ name ∈ seen') (hf : f.Fault seen e) : f.Fault seen' e := by
  cases hf with
  | repeated hm => exact .repeated ((h _).mp hm)
  | empty hn he => exact .empty (fun hm => hn ((h _).mpr hm)) he

theorem faultless_iff {fs : List Fragment} : checkFragments [] fs = .ok () ↔ Faultless fs := by
  rw [checkFragments_eq_ok_iff]
  exact ⟨fun h => ⟨h.1, h.2.2⟩, fun h => ⟨h.nodup, by simp, h.filled⟩⟩

section Fragments

variable {seen : List String} {f : Fragment} {rest : List Fragment} {e : DocumentError}

/-- The first fragment is at fault, or it is not and a later one is. -/
theorem checkFragments_cons_eq_error_iff :
    checkFragments seen (f :: rest) = .error e ↔ f.Fault seen e ∨
      (f.name ∉ seen ∧ FilledSet f.selections) ∧
        checkFragments (f.name :: seen) rest = .error e := by
  by_cases hm : f.name ∈ seen
  · rw [checkFragments_cons_of_mem hm]
    constructor
    · rintro ⟨⟩
      exact .inl (.repeated hm)
    · rintro (h | ⟨⟨hn, -⟩, -⟩)
      · cases h with
        | repeated => rfl
        | empty hn => exact absurd hm hn
      · exact absurd hm hn
  · rw [checkFragments_cons_of_not_mem hm, check_bind_eq_error_iff, checkSelections_eq_error_iff,
      checkSelections_eq_ok_iff]
    constructor
    · rintro (⟨path, hp, rfl⟩ | ⟨hf, h⟩)
      · exact .inl (.empty hm hp)
      · exact .inr ⟨⟨hm, hf⟩, h⟩
    · rintro (h | ⟨⟨-, hf⟩, h⟩)
      · cases h with
        | repeated h => exact absurd h hm
        | empty _ hp => exact .inl ⟨_, hp, rfl⟩
      · exact .inr ⟨hf, h⟩

/-- The fault reported is that of the first fragment at fault. -/
theorem checkFragments_eq_error_iff {fs : List Fragment} : checkFragments seen fs = .error e ↔
    ∃ before f after, fs = before ++ f :: after ∧ checkFragments seen before = .ok () ∧
      f.Fault (before.map Fragment.name ++ seen) e := by
  induction fs generalizing seen with
  | nil => simp [checkFragments]
  | cons g rest ih =>
    -- The names before a fragment of the rest are seen in another order in the two lists.
    have hnames : ∀ (before : List Fragment) (name : String),
        name ∈ before.map Fragment.name ++ g.name :: seen ↔
          name ∈ (g :: before).map Fragment.name ++ seen :=
      fun before name => by simp [or_left_comm]
    rw [checkFragments_cons_eq_error_iff, ih]
    constructor
    · rintro (h | ⟨hg, before, f, after, rfl, hok, h⟩)
      · exact ⟨[], g, rest, rfl, rfl, h⟩
      · exact ⟨g :: before, f, after, rfl, checkFragments_cons_eq_ok_iff.mpr ⟨hg, hok⟩,
          h.of_mem_iff (hnames before)⟩
    · rintro ⟨before, f, after, hfs, hok, h⟩
      cases before with
      | nil =>
        obtain ⟨rfl, rfl⟩ := List.cons.inj hfs
        exact .inl h
      | cons g' before =>
        obtain ⟨rfl, rfl⟩ := List.cons.inj hfs
        obtain ⟨hg, hok⟩ := checkFragments_cons_eq_ok_iff.mp hok
        exact .inr ⟨hg, before, f, after, rfl, hok,
          h.of_mem_iff fun name => (hnames before name).symm⟩

end Fragments

theorem Document.soleOperation_eq_error_iff {d : Document} {e : DocumentError} :
    d.soleOperation = .error e ↔ d.operations = [] ∧ e = .noOperation ∨
      1 < d.operations.length ∧ e = .multipleOperations d.operations.length := by
  unfold soleOperation
  cases d.operations with
  | nil => simp [eq_comm]
  | cons op rest => cases rest <;> simp [eq_comm]

/-- The check refuses a document for the operations, for the fragments, for the operation or for
what it uses. -/
theorem Document.check_eq_error_iff {d : Document} {e : DocumentError} :
    d.check = .error e ↔ d.soleOperation = .error e ∨ ∃ op, d.operations = [op] ∧
      (checkFragments [] d.fragments = .error e ∨ Faultless d.fragments ∧
        (checkSelections op.label op.selections = .error e ∨ FilledSet op.selections ∧
          ∃ name, (reach d.fragments op.selections).missing.head? = some name ∧
            e = .unknownFragment name)) := by
  unfold check
  rw [bind_eq_error_iff]
  refine or_congr_right (exists_congr fun op => ?_)
  rw [soleOperation_eq_ok_iff, check_bind_eq_error_iff, check_bind_eq_error_iff, faultless_iff,
    checkSelections_eq_ok_iff]
  cases (reach d.fragments op.selections).missing with
  | nil => simp [pure, Except.pure]
  | cons name rest => simp [throw, throwThe, MonadExceptOf.throw, eq_comm]

section Unknown

variable {fragments : List Fragment} {set : List Selection} {name : String}

/-- The name that exploring misses first is used, unknown and the nearest such name. -/
theorem isNearestUnknown_of_head? (h : (reach fragments set).missing.head? = some name) :
    IsNearestUnknown fragments set name := by
  have hr := isBreadthFirst_reach fragments set
  obtain ⟨rest, hm⟩ := List.head?_eq_some_iff.mp h
  have hin := (hr.mem_missing name).mp (by simp [hm])
  refine ⟨hin.1, hin.2, fun other hused hunknown => ?_⟩
  have ho := (hr.mem_missing other).mpr ⟨hused, hunknown⟩
  have hd := hr.missing_by_distance
  rw [hm] at ho hd
  obtain rfl | ho := List.mem_cons.mp ho
  · exact le_rfl
  · exact List.rel_of_pairwise_cons hd ho

/-- Where an unknown name is used, exploring misses a name. -/
theorem IsNearestUnknown.exists_head? (h : IsNearestUnknown fragments set name) :
    ∃ first, (reach fragments set).missing.head? = some first := by
  have hr := isBreadthFirst_reach fragments set
  have hm := (hr.mem_missing name).mpr ⟨h.used, h.unknown⟩
  cases hl : (reach fragments set).missing with
  | nil => exact absurd (hl ▸ hm) List.not_mem_nil
  | cons first rest => exact ⟨first, rfl⟩

end Unknown

/-- What the check reports is the first fault. -/
theorem Document.firstFault_of_check {d : Document} {e : DocumentError} (h : d.check = .error e) :
    d.FirstFault e := by
  obtain h | ⟨op, hop, h⟩ := check_eq_error_iff.mp h
  · obtain ⟨hnone, rfl⟩ | ⟨hmany, rfl⟩ := soleOperation_eq_error_iff.mp h
    · exact .noOperation hnone
    · exact .multipleOperations hmany
  obtain h | ⟨hfs, h⟩ := h
  · obtain ⟨before, f, after, hd, hbefore, h⟩ := checkFragments_eq_error_iff.mp h
    exact .inFragment hop hd (faultless_iff.mp hbefore) (by simpa using h)
  obtain h | ⟨hset, name, hmissing, rfl⟩ := h
  · obtain ⟨path, hp, rfl⟩ := checkSelections_eq_error_iff.mp h
    exact .inOperation hop hfs hp
  · exact .unknownFragment hop hfs hset (isNearestUnknown_of_head? hmissing)

/-- A first fault is reported, if perhaps for another unknown fragment that is as near. -/
theorem Document.FirstFault.reported {d : Document} {e : DocumentError} (h : d.FirstFault e) :
    d.check = .error e ∨ ∃ name name', e = .unknownFragment name ∧
      d.check = .error (.unknownFragment name') := by
  simp only [check_eq_error_iff]
  cases h with
  | noOperation h => exact .inl (.inl (soleOperation_eq_error_iff.mpr (.inl ⟨h, rfl⟩)))
  | multipleOperations h => exact .inl (.inl (soleOperation_eq_error_iff.mpr (.inr ⟨h, rfl⟩)))
  | inFragment hop hfs hbefore h =>
    have hf := checkFragments_eq_error_iff.mpr
      ⟨_, _, _, hfs, faultless_iff.mpr hbefore, by simpa using h⟩
    exact .inl (.inr ⟨_, hop, .inl hf⟩)
  | inOperation hop hfs h =>
    exact .inl (.inr ⟨_, hop, .inr ⟨hfs, .inl (checkSelections_eq_error_iff.mpr ⟨_, h, rfl⟩)⟩⟩)
  | unknownFragment hop hfs hset h =>
    obtain ⟨first, hfirst⟩ := h.exists_head?
    exact .inr ⟨_, first, rfl, .inr ⟨_, hop, .inr ⟨hfs, .inr ⟨hset, first, hfirst, rfl⟩⟩⟩⟩

/-- What a chain of uses leads to from the operation is there. -/
theorem Document.Registers.exists_of_chain {d : Document} {op : Operation} (h : d.Registers op)
    {n : Nat} {name : String} (hc : Chain d.fragments op.selections n name) :
    ∃ f ∈ d.fragments, f.name = name := by
  have hs := h.used name (reachable_iff_exists_chain.mpr ⟨n, hc⟩)
  rwa [isSome_fragmentNamed?_iff, List.mem_map] at hs

/-- The check lets exactly those documents through that hold one operation, fragments of different
names, no empty selection set at any depth and every fragment that a chain of uses leads to from
the operation. Of any other document it reports the first fault: the number of operations before a
fragment, a fragment before a later one, a repeated name before an empty set inside, these before
an empty set of the operation, and that before an unknown fragment. -/
theorem Document.check_reports_first_fault (d : Document) :
    (d.check = .ok () ↔
      (∃ op, d.operations = [op] ∧ ∀ n name, Chain d.fragments op.selections n name →
        ∃ f ∈ d.fragments, f.name = name) ∧
      (d.fragments.map Fragment.name).Nodup ∧
      ∀ x ∈ d.definitions, ∀ address path set, SetAt x.selections address path set → set ≠ []) ∧
    (∀ e, d.check = .error e → d.FirstFault e) ∧
    ∀ e, d.FirstFault e → d.check = .error e ∨ ∃ name name', e = .unknownFragment name ∧
      d.check = .error (.unknownFragment name') := by
  refine ⟨?_, fun e => firstFault_of_check, fun e h => h.reported⟩
  simp only [check_eq_ok_iff, ← filledSet_iff, forall_selections_iff]
  constructor
  · rintro ⟨op, h⟩
    refine ⟨⟨op, h.operations, fun n name => h.exists_of_chain⟩, h.nodup, ?_, h.fragments⟩
    simpa [h.operations] using h.selections
  · rintro ⟨⟨op, hop, hused⟩, hnodup, hops, hfs⟩
    refine ⟨op, hop, hnodup, hfs, hops op (by simp [hop]), fun name hr => ?_⟩
    obtain ⟨n, hc⟩ := reachable_iff_exists_chain.mp hr
    exact isSome_fragmentNamed?_iff.mpr (List.mem_map.mpr (hused n name hc))

example : DocumentError.message (.emptySelectionSet "query q" ["user", "... T"]) =
    "Empty selection set in query q > user > ... T" := by decide

/-- What the check lets through uses no fragment that is not there, but in fragments that no chain
of uses leads to from the operation. -/
theorem Document.use_resolves_or_idle {d : Document} (h : d.check = .ok ()) :
    ∃ op, d.operations = [op] ∧
      ∀ x ∈ d.definitions, ∀ address use, UseAt x.selections address use →
        (∃ f ∈ d.fragments, f.name = use.name) ∨
          ∃ f, x = .fragment f ∧ ∀ n, ¬Chain d.fragments op.selections n f.name := by
  obtain ⟨op, hr⟩ := check_eq_ok_iff.mp h
  refine ⟨op, hr.operations, fun x hx address use hu => ?_⟩
  cases x with
  | operation op' =>
    obtain rfl : op' = op := by simpa [hr.operations] using mem_operations_iff.mpr hx
    exact .inl (hr.exists_of_chain (.direct hu))
  | fragment f =>
    by_cases hc : ∃ n, Chain d.fragments op.selections n f.name
    · obtain ⟨n, hc⟩ := hc
      have hf := (fragmentNamed?_eq_some_iff hr.nodup).mpr ⟨mem_fragments_iff.mpr hx, rfl⟩
      exact .inl (hr.exists_of_chain (hc.through hf hu))
    · exact .inr ⟨f, rfl, not_exists.mp hc⟩

/-- Fragments that use each other, and one that nothing uses. -/
theorem Document.use_resolves_or_idle_cycle :
    ∃ d, Document.parse ("query q {a {...f}} fragment f on t {...g} " ++
        "fragment g on t {...f b} fragment h on t {...i}") = .ok d ∧
      d.check = .ok () ∧
      ∃ op, d.operations = [op] ∧
        ∀ x ∈ d.definitions, ∀ address use, UseAt x.selections address use →
          (∃ f ∈ d.fragments, f.name = use.name) ∨
            ∃ f, x = .fragment f ∧ ∀ n, ¬Chain d.fragments op.selections n f.name :=
  exists_of_map (by decide +kernel) fun _ _ hcheck => use_resolves_or_idle hcheck

/-- A fragment that nothing uses may use one that is not there. -/
theorem Document.exists_dangling_use :
    ∃ d, Document.parse "query Q { a } fragment A on T { ...Missing }" = .ok d ∧
      d.check = .ok () ∧
      ∃ x ∈ d.definitions, ∃ address use, UseAt x.selections address use ∧
        ∀ f ∈ d.fragments, f.name ≠ use.name := by
  refine exists_of_map (by decide +kernel) fun d hd hcheck => ?_
  have huses : (Document.parse "query Q { a } fragment A on T { ...Missing }").map
      (fun d => (d.fragments.map Fragment.name,
        d.definitions.map fun x => Selection.setUses x.selections)) =
      .ok (["A"], [[], ["Missing"]]) := by decide +kernel
  rw [hd] at huses
  obtain ⟨hnames, huses⟩ := Prod.mk.inj (Except.ok.inj huses)
  have hm : ["Missing"] ∈ d.definitions.map fun x => Selection.setUses x.selections := by
    rw [huses]
    exact List.mem_cons_of_mem _ List.mem_cons_self
  obtain ⟨x, hx, hset⟩ := List.mem_map.mp hm
  obtain ⟨address, use, hat, hname⟩ := mem_setUses_iff.mp (hset ▸ List.mem_singleton_self "Missing")
  refine ⟨x, hx, address, use, hat, fun f hf => ?_⟩
  have hA : f.name ∈ d.fragments.map Fragment.name := List.mem_map_of_mem hf
  rw [hnames, List.mem_singleton] at hA
  simp [hA, hname]

end Safelist
