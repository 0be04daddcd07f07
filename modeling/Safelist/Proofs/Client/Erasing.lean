import Safelist.Proofs.Client.Bundling
import Safelist.Proofs.Client.Collection

/-!
# Erasing keeps bundles tight

Dropping selections leaves no empty selection set inside another. A round that
drops the empty fragments drops the uses of them too, so what is used stays there,
and after the last round no fragment is empty. Dropping the unused fragments then
leaves a tight bundle. So what the server is to see of a bundle is tight.
-/

namespace Safelist.Client

variable {name : String} {order : List String} {op : Operation} {fs : List Fragment}

section Dropping

variable {unwanted : Selection → Bool} {p : String → Prop}
  (hp : ∀ s, unwanted (.spread s) = false → p s.name)

/-- A selection that is not dropped is filled, and uses nothing but what it used and what may be
used. -/
def Dropped (p : String → Prop) (s t : Selection) : Prop :=
  t.Filled ∧ ∀ n ∈ t.uses, n ∈ s.uses ∧ p n

/-- What a selection set uses once others are dropped. -/
theorem dropped_onEach {set : List Selection}
    (h : ∀ s ∈ set, ∀ t, (dropping unwanted).onSelection s = some t → Dropped p s t) :
    (∀ t ∈ (dropping unwanted).onEach set, t.Filled) ∧
      ∀ n ∈ Selection.setUses ((dropping unwanted).onEach set),
        n ∈ Selection.setUses set ∧ p n := by
  simp only [Edit.onEach_eq_filterMap, Selection.setUses_eq_flatMap, List.mem_flatMap,
    List.mem_filterMap]
  constructor
  · rintro t ⟨s, hs, hst⟩
    exact (h s hs t hst).1
  · rintro n ⟨t, ⟨s, hs, hst⟩, hn⟩
    obtain ⟨hu, hpn⟩ := (h s hs t hst).2 n hn
    exact ⟨⟨s, hs, hu⟩, hpn⟩

/-- A selection is dropped when it is unwanted or has become empty. -/
theorem selection_dropping_eq_some {s t : Selection}
    (h : (dropping unwanted).selection s = some t) :
    t = s ∧ unwanted s = false ∧ isEmptied s = false := by
  simp only [dropping] at h
  split at h
  · cases h
  · rename_i hn
    rw [Bool.or_eq_true, not_or, Bool.not_eq_true, Bool.not_eq_true] at hn
    exact ⟨(Option.some.inj h).symm, hn⟩

include hp

/-- What is left of a selection is filled. -/
theorem dropped_onSelection (s : Selection) :
    ∀ t, (dropping unwanted).onSelection s = some t → Dropped p s t := by
  induction s with
  | leaf f =>
    intro t ht
    obtain ⟨rfl, -, -⟩ := selection_dropping_eq_some ht
    exact ⟨.leaf _, by simp [Selection.uses]⟩
  | nested f set ih =>
    intro t ht
    obtain ⟨hf, hu⟩ := dropped_onEach ih
    obtain ⟨rfl, -, he⟩ := selection_dropping_eq_some ht
    exact ⟨.nested _ (by simpa [isEmptied] using he) hf, hu⟩
  | spread s =>
    intro t ht
    obtain ⟨rfl, hw, -⟩ := selection_dropping_eq_some ht
    refine ⟨.spread _, fun n hn => ⟨hn, ?_⟩⟩
    obtain rfl := List.mem_singleton.mp hn
    exact hp _ hw
  | inline head set ih =>
    intro t ht
    obtain ⟨hf, hu⟩ := dropped_onEach ih
    obtain ⟨rfl, -, he⟩ := selection_dropping_eq_some ht
    exact ⟨.inline _ (by simpa [isEmptied] using he) hf, hu⟩

/-- What is left of a selection set is filled, unless nothing is. -/
theorem dropped_onSelections (set : List Selection) :
    (∀ t ∈ (dropping unwanted).onSelections set, t.Filled) ∧
      ∀ n ∈ Selection.setUses ((dropping unwanted).onSelections set),
        n ∈ Selection.setUses set ∧ p n :=
  dropped_onEach fun s _ => dropped_onSelection hp s

end Dropping

/-- Fragments can be dropped together with all uses of them. -/
theorem Coherent.drop (h : Coherent name order op fs) (unwanted : Selection → Bool)
    (names : List String) (hu : ∀ s, unwanted (.spread s) = false → s.name ∉ names) :
    Coherent name order ((dropping unwanted).onOperation op)
      ((fs.filter fun f => !names.contains f.name).map (dropping unwanted).onFragment) := by
  have hnames : ((fs.filter fun f => !names.contains f.name).map
      (dropping unwanted).onFragment).map Fragment.name =
        (fs.filter fun f => !names.contains f.name).map Fragment.name := by
    simp [Edit.onFragment]
  have hmem : ∀ n, n ∈ fs.map Fragment.name → n ∉ names →
      n ∈ (fs.filter fun f => !names.contains f.name).map Fragment.name := by
    intro n hn hnot
    obtain ⟨f, hf, rfl⟩ := List.mem_map.mp hn
    exact List.mem_map_of_mem (List.mem_filter.mpr ⟨hf, by simpa using hnot⟩)
  have hd := dropped_onSelections (p := (· ∉ names)) hu
  refine ⟨h.named, ?_, (hd op.selections).1, ?_, fun n hn => ?_, ?_⟩
  · rw [hnames]
    exact (List.filter_sublist.map _).trans h.ordered
  · exact List.forall_mem_map.mpr fun f _ => (hd f.selections).1
  · obtain ⟨huse, hnot⟩ := (hd op.selections).2 n hn
    rw [hnames]
    exact hmem n (h.known huse) hnot
  · refine List.forall_mem_map.mpr fun f hf n hn => ?_
    obtain ⟨huse, hnot⟩ := (hd f.selections).2 n hn
    rw [hnames]
    exact hmem n (h.fragmentsKnown f (List.mem_filter.mp hf).1 huse) hnot

/-- Some fragments are dropped from a bundle. -/
theorem dropFragments_bundle (names : List String) (op : Operation) (fs : List Fragment) :
    dropFragments names (.bundle op fs) = .bundle ((dropping (isUse names)).onOperation op)
      ((fs.filter fun f => !names.contains f.name).map (dropping (isUse names)).onFragment) := by
  rw [dropFragments, ← Document.apply_bundle rfl]
  simp [Document.bundle, isFragmentOf, List.filter_map, Function.comp_def]

/-- Each round keeps together what is left, and after the last one no fragment is empty. -/
theorem exists_dropEmptyFragments {d : Document}
    (h : ∃ op fs, d = .bundle op fs ∧ Coherent name order op fs) :
    ∃ op fs, dropEmptyFragments d = .bundle op fs ∧ Coherent name order op fs ∧
      ∀ f ∈ fs, f.selections ≠ [] := by
  fun_induction dropEmptyFragments d with
  | case1 d hd =>
    obtain ⟨op, fs, rfl, hc⟩ := h
    refine ⟨op, fs, rfl, hc, fun f hf hn => ?_⟩
    have hm : f.name ∈ emptyFragments (.bundle op fs) :=
      List.mem_map_of_mem (List.mem_filter.mpr ⟨by simpa using hf, by simp [hn]⟩)
    rw [hd] at hm
    cases hm
  | case2 d hd ih =>
    obtain ⟨op, fs, rfl, hc⟩ := h
    refine ih ⟨_, _, dropFragments_bundle _ op fs, hc.drop _ _ fun s hs => ?_⟩
    simpa [isUse] using hs

/-- The unused fragments are dropped from a bundle. -/
theorem dropUnusedFragments_bundle (op : Operation) (fs : List Fragment) :
    dropUnusedFragments (.bundle op fs) = .bundle op
      (fs.filter fun f => (reach fs op.selections).names.contains f.name) := by
  have hu : usedNames (.bundle op fs) = (reach fs op.selections).names := by simp [usedNames]
  rw [dropUnusedFragments, hu]
  simp [Document.bundle, List.filter_map, Function.comp_def]

/-- Erasing client-side fields keeps a bundle tight. -/
theorem Tight.exists_eraseClientFields (h : Tight name order op fs) (ho : order.Nodup)
    (names : List String) :
    ∃ op' fs', eraseClientFields names (.bundle op fs) = .bundle op' fs' ∧
      Tight name order op' fs' := by
  unfold eraseClientFields
  split
  · exact ⟨op, fs, rfl, h⟩
  · have hc := h.toCoherent.drop (isClientField names) [] fun _ _ => List.not_mem_nil
    obtain ⟨op', fs', hd, hc', hne⟩ := exists_dropEmptyFragments ⟨_, _, rfl, hc⟩
    have ht := tight_filter_reach hc'.named hc'.ordered (hc'.nodup ho) hc'.filled
      (fun f hf => ⟨hne f hf, hc'.fragmentsFilled f hf⟩) fun n hn => hc'.mem_of_reachable hn
    refine ⟨op', _, ?_, ht⟩
    rw [Document.apply_bundle rfl, ← dropUnusedFragments_bundle, ← hd]
    simp

/-- What the server is to see of a tight bundle is a tight bundle. -/
theorem Tight.exists_serverSide (h : Tight name order op fs) (ho : order.Nodup) (s : Settings) :
    ∃ op' fs', serverSide s (.bundle op fs) = .bundle op' fs' ∧
      Tight name order op' fs' := by
  have ht : ∃ op' fs', (if s.addTypename then addTypename (.bundle op fs) else .bundle op fs) =
      .bundle op' fs' ∧ Tight name order op' fs' := by
    split
    · exact ⟨_, _, Document.apply_bundle rfl op fs, h.keep keeps_askingTypes⟩
    · exact ⟨op, fs, rfl, h⟩
  obtain ⟨op', fs', hd, h'⟩ := ht
  obtain ⟨op'', fs'', hd', h''⟩ := h'.exists_eraseClientFields ho s.clientSchemaDirectives
  refine ⟨_, _, ?_, h''.keep (keeps_stripping s.clientOnlyDirectives)⟩
  rw [serverSide, hd, hd']
  exact Document.apply_bundle rfl op'' fs''

end Safelist.Client
