import Mathlib.Data.List.Nodup
import Safelist.Proofs.Client.Bundling
import Safelist.Proofs.Client.Rounds
import Safelist.Proofs.Document.RoundTrip
import Safelist.Proofs.Document.Without

/-!
# What erasure makes vanish

A selection vanishes when the client resolves it, or when nothing would be left
below it, or when it uses a fragment of which nothing would be left; and there is
no other reason. The rounds of erasure find nothing else, for the fragments that
are gone vanish as a whole, and they find all of it, for they go on until no more
fragments are left empty.
-/

namespace Safelist.Client

/-- A selection vanishes from among some fragments when the fields with directives of some names
are not there. -/
inductive Vanishes (names : List String) (fragments : List Fragment) : Selection → Prop
  /-- A field with such a directive vanishes. -/
  | annotated {s : Selection} (h : isClientField names s = true) : Vanishes names fragments s
  /-- A field vanishes when all that is selected below it does. -/
  | nested {f : Field} {set : List Selection} (h : ∀ s ∈ set, Vanishes names fragments s) :
    Vanishes names fragments (.nested f set)
  /-- An inline fragment vanishes when all that is selected in it does. -/
  | inline {head : InlineHead} {set : List Selection} (h : ∀ s ∈ set, Vanishes names fragments s) :
    Vanishes names fragments (.inline head set)
  /-- The use of a fragment vanishes when all that the fragment selects does. -/
  | spread {s : Spread} {f : Fragment} (hf : f ∈ fragments) (hn : f.name = s.name)
    (h : ∀ t ∈ f.selections, Vanishes names fragments t) : Vanishes names fragments (.spread s)

/-- Where each of some fragments uses another of them in its own selection set, no use of them
vanishes. -/
theorem not_vanishes_spread_of_cycle {names : List String} {fragments : List Fragment}
    {cycle : List String}
    (h : ∀ f ∈ fragments, f.name ∈ cycle → ∃ s, .spread s ∈ f.selections ∧ s.name ∈ cycle)
    {s : Spread} (hs : s.name ∈ cycle) : ¬Vanishes names fragments (.spread s) := by
  have huse : ∀ t, Vanishes names fragments t → ∀ s, t = .spread s → s.name ∉ cycle := by
    intro t ht
    induction ht with
    | annotated h =>
      rintro s rfl
      cases h
    | nested => exact fun s hs => by cases hs
    | inline => exact fun s hs => by cases hs
    | @spread s g hg hname _ ih =>
      rintro _ ⟨⟩ hmem
      obtain ⟨s', hs', hmem'⟩ := h g hg (hname ▸ hmem)
      exact ih _ hs' s' rfl hmem'
  exact fun hv => huse _ hv s rfl hs

section Rounds

variable {names : List String} {d : Document}

/-- Every fragment that is gone vanishes as a whole. -/
def OnlyVanished (names : List String) (d : Document) (gone : List String) : Prop :=
  ∀ name ∈ gone, ∃ f ∈ d.fragments, f.name = name ∧
    ∀ s ∈ f.selections, Vanishes names d.fragments s

/-- Every fragment of which nothing is left after a pass is gone. -/
def AllGone (names : List String) (d : Document) (gone : List String) : Prop :=
  ∀ f ∈ d.fragments,
    (∀ s ∈ f.selections, (dropping (isUnwanted names gone)).onSelection s = none) → f.name ∈ gone

/-- While the fragments that are gone vanish, so does what a pass drops. -/
theorem OnlyVanished.vanishes {gone : List String} (h : OnlyVanished names d gone) {s : Selection}
    (hs : (dropping (isUnwanted names gone)).onSelection s = none) :
    Vanishes names d.fragments s := by
  have hu := looksAtHeads_isUnwanted names gone
  induction s with
  | leaf f => exact .annotated (by simpa [onSelection_dropping_leaf, isUnwanted, isUse] using hs)
  | nested f set ih =>
    obtain hf | hset := hu.onSelection_nested_eq_none_iff.mp hs
    · exact .annotated (by simpa [isUnwanted, isUse] using hf)
    · exact .nested fun s hm => ih s hm (hset s hm)
  | spread s =>
    have hgone : s.name ∈ gone := by
      simpa [onSelection_dropping_spread, isUnwanted, isUse, isClientField] using hs
    obtain ⟨f, hf, hn, hall⟩ := h _ hgone
    exact .spread hf hn hall
  | inline head set ih =>
    obtain hf | hset := hu.onSelection_inline_eq_none_iff.mp hs
    · simp [isUnwanted, isUse, isClientField] at hf
    · exact .inline fun s hm => ih s hm (hset s hm)

/-- When the fragments of which nothing is left are gone, a pass drops all that vanishes. -/
theorem AllGone.onSelection_eq_none {gone : List String} (h : AllGone names d gone) {s : Selection}
    (hs : Vanishes names d.fragments s) :
    (dropping (isUnwanted names gone)).onSelection s = none := by
  have hu := looksAtHeads_isUnwanted names gone
  induction hs with
  | @annotated s hs =>
    have hw : isUnwanted names gone s = true := by simp [isUnwanted, hs]
    cases s with
    | leaf f => rw [onSelection_dropping_leaf, if_pos hw]
    | nested f set => exact hu.onSelection_nested_eq_none_iff.mpr (.inl hw)
    | spread s => cases hs
    | inline head set => cases hs
  | nested _ ih => exact hu.onSelection_nested_eq_none_iff.mpr (.inr ih)
  | inline _ ih => exact hu.onSelection_inline_eq_none_iff.mpr (.inr ih)
  | @spread s f hf hn _ ih =>
    have hgone : s.name ∈ gone := hn ▸ h f hf ih
    simp [onSelection_dropping_spread, isUnwanted, isUse, hgone]

/-- The rounds end with one pass over the document as it was, in which the fragments that are gone
are those that vanish. -/
theorem exists_dropEmptyFragments_eq {gone : List String} (h : OnlyVanished names d gone) :
    ∃ gone', dropEmptyFragments (withoutGone names d gone) = withoutGone names d gone' ∧
      OnlyVanished names d gone' ∧ AllGone names d gone' := by
  generalize hw : withoutGone names d gone = w
  fun_induction dropEmptyFragments w generalizing gone with
  | case1 w hempty =>
    refine ⟨gone, hw.symm, h, fun f hf hall => by_contra fun hgone => ?_⟩
    have hm : f.name ∈ emptyFragments w :=
      hw ▸ mem_emptyFragments_withoutGone.mpr ⟨hgone, f, hf, rfl, hall⟩
    rw [hempty] at hm
    cases hm
  | case2 w hempty ih =>
    have hround : withoutGone names d (gone ++ emptyFragments w) =
        dropFragments (emptyFragments w) w := by
      rw [← hw, dropFragments_withoutGone]
    refine ih (fun name hn => ?_) hround
    obtain hn | hn := List.mem_append.mp hn
    · exact h name hn
    · obtain ⟨-, f, hf, hname, hall⟩ := mem_emptyFragments_withoutGone.mp (hw ▸ hn)
      exact ⟨f, hf, hname, fun s hs => h.vanishes (hall s hs)⟩

end Rounds

section Outcome

variable {names : List String} {d : Document} {gone : List String}

open Classical in
/-- A pass over a selection set, where what it drops is what vanishes. -/
theorem onEach_eq_setWithout {set : List Selection}
    (h : ∀ s ∈ set, (dropping (isUnwanted names gone)).onSelection s =
      if Vanishes names d.fragments s then none
      else some (s.without (Vanishes names d.fragments))) :
    (dropping (isUnwanted names gone)).onEach set =
      Selection.setWithout (Vanishes names d.fragments) set := by
  induction set with
  | nil => rfl
  | cons s rest ih =>
    obtain ⟨hs, hrest⟩ := List.forall_mem_cons.mp h
    by_cases hv : Vanishes names d.fragments s
    · rw [Edit.onEach, hs, Selection.setWithout, if_pos hv, if_pos hv, ih hrest]
    · rw [Edit.onEach, hs, Selection.setWithout, if_neg hv, if_neg hv, ih hrest]

open Classical in
/-- The last pass takes what vanishes out of every selection. -/
theorem onSelection_eq_without (ho : OnlyVanished names d gone) (ha : AllGone names d gone)
    (s : Selection) :
    (dropping (isUnwanted names gone)).onSelection s =
      if Vanishes names d.fragments s then none
      else some (s.without (Vanishes names d.fragments)) := by
  have hu := looksAtHeads_isUnwanted names gone
  -- What does not vanish is not dropped, so it is left to look at what is kept.
  have hkept : ∀ s, ((dropping (isUnwanted names gone)).onSelection s ≠ none →
      (dropping (isUnwanted names gone)).onSelection s =
        some (s.without (Vanishes names d.fragments))) →
      (dropping (isUnwanted names gone)).onSelection s =
        if Vanishes names d.fragments s then none
        else some (s.without (Vanishes names d.fragments)) := by
    intro s hs
    split
    · exact ha.onSelection_eq_none ‹_›
    · exact hs (mt ho.vanishes ‹_›)
  induction s with
  | leaf f =>
    refine hkept _ fun hne => ?_
    rw [onSelection_dropping_leaf] at hne ⊢
    exact if_neg fun hw => hne (if_pos hw)
  | nested f set ih =>
    refine hkept _ fun hne => ?_
    rw [hu.onSelection_nested, onEach_eq_setWithout ih] at hne ⊢
    exact if_neg fun hw => hne (if_pos hw)
  | spread s =>
    refine hkept _ fun hne => ?_
    rw [onSelection_dropping_spread] at hne ⊢
    exact if_neg fun hw => hne (if_pos hw)
  | inline head set ih =>
    refine hkept _ fun hne => ?_
    rw [hu.onSelection_inline, onEach_eq_setWithout ih] at hne ⊢
    exact if_neg fun hw => hne (if_pos hw)

open Classical in
/-- The last pass takes what vanishes out of every definition. -/
theorem onDefinition_eq_without (ho : OnlyVanished names d gone) (ha : AllGone names d gone)
    (x : Definition) :
    (dropping (isUnwanted names gone)).onDefinition x =
      x.without (Vanishes names d.fragments) := by
  have hset : ∀ set : List Selection, (dropping (isUnwanted names gone)).onSelections set =
      Selection.setWithout (Vanishes names d.fragments) set :=
    fun set => onEach_eq_setWithout fun s _ => onSelection_eq_without ho ha s
  cases x with
  | operation op =>
    rw [Edit.onDefinition, (keepsHeads_dropping _).onOperation_eq, hset]
    rfl
  | fragment f =>
    rw [Edit.onDefinition, (keepsHeads_dropping _).onFragment_eq, hset]
    rfl

open Classical in
/-- Some operation still uses a fragment, directly or through fragments, when what vanishes is
out. -/
def StillUsed (names : List String) (d : Document) (name : String) : Prop :=
  ∃ op ∈ (d.without (Vanishes names d.fragments)).operations,
    Reachable (d.without (Vanishes names d.fragments)).fragments op.selections name

/-- The definitions that erasure keeps are the operations, and the fragments that do not vanish as
a whole and are still used. -/
def Remains (names : List String) (d : Document) : Definition → Prop
  | .operation _ => True
  | .fragment f => (¬∀ s ∈ f.selections, Vanishes names d.fragments s) ∧ StillUsed names d f.name

/-- Where names do not repeat, the fragments that are gone are those that vanish as a whole. -/
theorem mem_gone_iff (ho : OnlyVanished names d gone) (ha : AllGone names d gone)
    (hn : (d.fragments.map Fragment.name).Nodup) {f : Fragment} (hf : f ∈ d.fragments) :
    f.name ∈ gone ↔ ∀ s ∈ f.selections, Vanishes names d.fragments s := by
  constructor
  · intro hgone
    obtain ⟨g, hg, hname, hall⟩ := ho _ hgone
    obtain rfl := List.inj_on_of_nodup_map hn hg hf hname
    exact hall
  · exact fun hall => ha f hf fun s hs => ha.onSelection_eq_none (hall s hs)

/-- Fragments that use nothing can be left out when names are looked up. -/
theorem reachable_filter_iff {fs : List Fragment} (hn : (fs.map Fragment.name).Nodup)
    {keep : Fragment → Bool}
    (hk : ∀ f ∈ fs, keep f = false → Selection.setUses f.selections = [])
    {set : List Selection} {name : String} :
    Reachable (fs.filter keep) set name ↔ Reachable fs set name := by
  have hn' : ((fs.filter keep).map Fragment.name).Nodup := (List.filter_sublist.map _).nodup hn
  constructor
  · refine fun h => h.mono (fun _ hu => hu) fun name f hf => ⟨f, ?_, fun _ hu => hu⟩
    obtain ⟨hm, hname⟩ := (fragmentNamed?_eq_some_iff hn').mp hf
    exact (fragmentNamed?_eq_some_iff hn).mpr ⟨List.mem_of_mem_filter hm, hname⟩
  · intro h
    induction h with
    | direct hu => exact .direct hu
    | @through _ _ f _ hf hu ih =>
      obtain ⟨hm, hname⟩ := (fragmentNamed?_eq_some_iff hn).mp hf
      have hkeep : keep f = true := by
        by_contra hdrop
        rw [hk f hm (by simpa using hdrop)] at hu
        cases hu
      exact ih.through
        ((fragmentNamed?_eq_some_iff hn').mpr ⟨List.mem_filter.mpr ⟨hm, hkeep⟩, hname⟩) hu

/-- A name is used when an operation reaches a fragment by it. -/
theorem mem_usedNames {d : Document} {name : String} :
    name ∈ usedNames d ↔ name ∈ d.fragments.map Fragment.name ∧
      ∃ op ∈ d.operations, Reachable d.fragments op.selections name := by
  simp only [usedNames, List.mem_flatMap, mem_names_reach, isSome_fragmentNamed?_iff]
  exact ⟨fun ⟨op, hop, hr, hm⟩ => ⟨hm, op, hop, hr⟩, fun ⟨hm, op, hop, hr⟩ => ⟨op, hop, hr, hm⟩⟩

open Classical in
/-- What is left after the rounds is the document without what vanishes, and without the fragments
that vanish as a whole. -/
theorem withoutGone_eq (ho : OnlyVanished names d gone) (ha : AllGone names d gone) :
    withoutGone names d gone = Document.without (Vanishes names d.fragments)
      ⟨d.definitions.filter fun x => !isFragmentOf gone x⟩ := by
  rw [withoutGone, Edit.apply, dropping_definitions, Document.without]
  exact congrArg Document.mk (List.map_congr_left fun x _ => onDefinition_eq_without ho ha x)

/-- Of what is left after the rounds, a fragment is used just when it is still used. -/
theorem mem_usedNames_withoutGone (ho : OnlyVanished names d gone) (ha : AllGone names d gone)
    (hn : (d.fragments.map Fragment.name).Nodup) {f : Fragment} (hf : f ∈ d.fragments)
    (hgone : f.name ∉ gone) :
    f.name ∈ usedNames (withoutGone names d gone) ↔ StillUsed names d f.name := by
  classical
  have hfs : ((d.fragments.map (Fragment.without (Vanishes names d.fragments))).map
      Fragment.name).Nodup := by
    rw [List.map_map]
    exact hn
  have hfragments : (withoutGone names d gone).fragments =
      (d.fragments.map (Fragment.without (Vanishes names d.fragments))).filter
        fun f => !gone.contains f.name := by
    rw [withoutGone_eq ho ha, Document.fragments_without, fragments_filter_isFragmentOf,
      List.filter_map]
    rfl
  have hmem : f.name ∈ (withoutGone names d gone).fragments.map Fragment.name := by
    rw [hfragments]
    exact List.mem_map.mpr ⟨_, List.mem_filter.mpr
      ⟨List.mem_map_of_mem hf, by simpa [Fragment.without] using hgone⟩, rfl⟩
  have hempty : ∀ g ∈ d.fragments.map (Fragment.without (Vanishes names d.fragments)),
      (!gone.contains g.name) = false → Selection.setUses g.selections = [] := by
    refine List.forall_mem_map.mpr fun g hg hdrop => ?_
    have hall := (mem_gone_iff ho ha hn hg).mp (by simpa [Fragment.without] using hdrop)
    rw [Fragment.without, Selection.setWithout_eq_nil_iff.mpr hall, Selection.setUses]
  rw [mem_usedNames, and_iff_right hmem, StillUsed, hfragments, withoutGone_eq ho ha,
    Document.operations_without, operations_filter_isFragmentOf, Document.operations_without,
    Document.fragments_without]
  simp only [reachable_filter_iff hfs hempty]

/-- The definitions that are left after the rounds and are used are those that remain. -/
theorem remains_iff (ho : OnlyVanished names d gone) (ha : AllGone names d gone)
    (hn : (d.fragments.map Fragment.name).Nodup) {f : Fragment} (hf : f ∈ d.fragments) :
    Remains names d (.fragment f) ↔
      f.name ∉ gone ∧ f.name ∈ usedNames (withoutGone names d gone) := by
  rw [Remains, ← mem_gone_iff ho ha hn hf]
  exact and_congr_right fun hgone => (mem_usedNames_withoutGone ho ha hn hf hgone).symm

open Classical in
/-- Erasure takes out what vanishes, at every depth, and no other selection; of the definitions it
keeps those that remain. -/
theorem eraseClientFields_eq_without (hne : names ≠ [])
    (hn : (d.fragments.map Fragment.name).Nodup) :
    eraseClientFields names d = Document.without (Vanishes names d.fragments)
      ⟨d.definitions.filter (Remains names d)⟩ := by
  obtain ⟨gone, hrounds, ho, ha⟩ :=
    exists_dropEmptyFragments_eq (show OnlyVanished names d [] from fun _ => by simp)
  have hused := congrArg usedNames (withoutGone_eq ho ha)
  have hdrop : dropUnusedFragments (withoutGone names d gone) =
      Document.without (Vanishes names d.fragments) ⟨d.definitions.filter fun x =>
        (match x with
          | .operation _ => true
          | .fragment f => (usedNames (withoutGone names d gone)).contains f.name) &&
        !isFragmentOf gone x⟩ := by
    rw [dropUnusedFragments, hused, withoutGone_eq ho ha, Document.without, Document.without,
      List.filter_map, List.filter_filter]
    refine congrArg Document.mk (congrArg (List.map _) (List.filter_congr fun x _ => ?_))
    cases x <;> rfl
  rw [eraseClientFields, if_neg (by simpa using hne), apply_dropping_isClientField, hrounds, hdrop]
  refine congrArg (fun ds => Document.without _ ⟨ds⟩) (List.filter_congr fun x hx => ?_)
  cases x with
  | operation op =>
    have hr : Remains names d (.operation op) := trivial
    exact (decide_eq_true hr).symm
  | fragment f =>
    have hf : f ∈ d.fragments := List.mem_filterMap.mpr ⟨_, hx, rfl⟩
    simp [remains_iff ho ha hn hf, isFragmentOf, Bool.and_comm]

/-- A fragment has selections, and they are all uses of fragments of some names. -/
structure SelectsOnly (cycle : List String) (f : Fragment) : Prop where
  /-- There are selections. -/
  ne_nil : f.selections ≠ []
  /-- Every selection is a use. -/
  uses : ∀ s ∈ f.selections, ∃ use : Spread, s = .spread use ∧ use.name ∈ cycle

/-- A fragment from a cycle stays as it is, if it is still used. -/
theorem mem_eraseClientFields_of_cycle (hne : names ≠ [])
    (hn : (d.fragments.map Fragment.name).Nodup) {cycle : List String}
    (hcycle : ∀ f ∈ d.fragments, f.name ∈ cycle → SelectsOnly cycle f) {f : Fragment}
    (hf : f ∈ d.fragments) (hmem : f.name ∈ cycle) (hused : StillUsed names d f.name) :
    .fragment f ∈ (eraseClientFields names d).definitions := by
  classical
  have hnot : ∀ {use : Spread}, use.name ∈ cycle → ¬Vanishes names d.fragments (.spread use) := by
    refine not_vanishes_spread_of_cycle fun g hg hm => ?_
    obtain ⟨s, hs⟩ := List.exists_mem_of_ne_nil _ (hcycle g hg hm).ne_nil
    obtain ⟨use, rfl, huse⟩ := (hcycle g hg hm).uses s hs
    exact ⟨use, hs, huse⟩
  have hkeep : ∀ s ∈ f.selections, ¬Vanishes names d.fragments s ∧
      s.without (Vanishes names d.fragments) = s := by
    intro s hs
    obtain ⟨use, rfl, huse⟩ := (hcycle f hf hmem).uses s hs
    exact ⟨hnot huse, rfl⟩
  have hremains : Remains names d (.fragment f) := by
    obtain ⟨s, hs⟩ := List.exists_mem_of_ne_nil _ (hcycle f hf hmem).ne_nil
    exact ⟨fun hall => (hkeep s hs).1 (hall s hs), hused⟩
  have hfix : f.without (Vanishes names d.fragments) = f := by
    rw [Fragment.without, Selection.setWithout_eq_self hkeep]
  obtain ⟨x, hx, hxf⟩ := List.mem_filterMap.mp hf
  obtain rfl : x = .fragment f := by
    cases x with
    | operation op => cases hxf
    | fragment g => rw [Option.some.inj hxf]
  rw [eraseClientFields_eq_without hne hn]
  exact List.mem_map.mpr ⟨_, List.mem_filter.mpr ⟨hx, decide_eq_true hremains⟩,
    congrArg Definition.fragment hfix⟩

end Outcome

open Classical in
/-- Erasure takes out what vanishes, at every depth, and nothing else. Of the definitions it keeps
the operations and the fragments that do not vanish as a whole and are still used; in particular
it keeps a cycle of fragments that select nothing but each other. -/
theorem erasure_takes_out_what_vanishes {names : List String} (hne : names ≠ []) {d : Document}
    (hn : (d.fragments.map Fragment.name).Nodup) :
    eraseClientFields names d = Document.without (Vanishes names d.fragments)
        ⟨d.definitions.filter (Remains names d)⟩ ∧
      ∀ cycle : List String, (∀ f ∈ d.fragments, f.name ∈ cycle → SelectsOnly cycle f) →
        ∀ f ∈ d.fragments, f.name ∈ cycle → StillUsed names d f.name →
          .fragment f ∈ (eraseClientFields names d).definitions :=
  ⟨eraseClientFields_eq_without hne hn,
    fun _ hcycle _ hf hmem hused => mem_eraseClientFields_of_cycle hne hn hcycle hf hmem hused⟩

open Classical in
/-- A field and two fragments vanish because of one that vanishes in the second of them; two
fragments that use each other stay, and so does the use of a fragment that is not there. -/
theorem erasure_takes_out_what_vanishes_cyclic :
    ∃ d, Document.parse ("query q {a @c ...F b {...E} x {k} ...N} " ++
        "fragment E on t {n @c ...M} fragment M on t {... on t {m @c}} " ++
        "fragment F on t {...G} fragment G on t {...F} fragment U on t {u}") = .ok d ∧
      (d.fragments.map Fragment.name, (eraseClientFields ["c"] d).print) =
        (["E", "M", "F", "G", "U"],
          "query q{...F x{k}...N}fragment F on t{...G}fragment G on t{...F}") ∧
      (d.fragments.map Fragment.name).Nodup ∧
      eraseClientFields ["c"] d = Document.without (Vanishes ["c"] d.fragments)
        ⟨d.definitions.filter (Remains ["c"] d)⟩ := by
  refine Document.exists_of_map (by decide +kernel) fun d _ hd => ?_
  have hn : (d.fragments.map Fragment.name).Nodup := by
    rw [(Prod.mk.inj hd).1]
    decide
  exact ⟨hn, (erasure_takes_out_what_vanishes (by decide) hn).1⟩

end Safelist.Client
