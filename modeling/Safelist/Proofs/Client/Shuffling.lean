import Safelist.Proofs.Client.Erasing
import Safelist.Proofs.Signature.Dropping

/-!
# The order of fragments

Two bundles that differ in the order of their fragments alone still do so when the
server is to see them: what each step does to a fragment depends on the operation,
on the fragment itself and on which names there are, but not on their order. In
canonical order the two are one document.
-/

namespace Safelist

/-- Where names do not repeat, they mean the same in every order. -/
theorem fragmentNamed?_eq_of_perm {fs gs : List Fragment} (h : fs.Perm gs)
    (hn : (fs.map Fragment.name).Nodup) (name : String) :
    fragmentNamed? fs name = fragmentNamed? gs name := by
  have hn' : (gs.map Fragment.name).Nodup := (h.map Fragment.name).nodup_iff.mp hn
  ext f
  rw [fragmentNamed?_eq_some_iff hn, fragmentNamed?_eq_some_iff hn', h.mem_iff]

/-- Sorting by keys that do not repeat forgets the order. -/
theorem Signature.sortByKey_eq_of_perm {α : Type} {key : α → Key} {xs ys : List α}
    (h : xs.Perm ys) (hn : (xs.map key).Nodup) : sortByKey key xs = sortByKey key ys := by
  rw [sortByKey_eq_iff]
  induction h with
  | nil => exact .refl key []
  | cons x _ ih =>
    rw [List.map_cons, List.nodup_cons] at hn
    exact StablePerm.cons_iff.mpr (ih hn.2)
  | swap x y xs =>
    rw [List.map_cons, List.nodup_cons, List.map_cons] at hn
    have hne : ∀ z ∈ [y], key z ≠ key x := by
      intro z hz he
      rw [List.mem_singleton.mp hz] at he
      exact hn.1 (he ▸ List.mem_cons_self)
    exact StablePerm.middle hne xs
  | trans h h' ih ih' => exact (ih hn).trans (ih' ((h.map key).nodup_iff.mp hn))

namespace Client

/-- Two documents are bundles of one operation with the same fragments in some order, and no name
of a fragment repeats. -/
def Shuffled (d d' : Document) : Prop :=
  ∃ op fs fs', d = .bundle op fs ∧ d' = .bundle op fs' ∧ fs.Perm fs' ∧
    (fs.map Fragment.name).Nodup

variable {d d' : Document}

theorem shuffled_bundle {op : Operation} {fs fs' : List Fragment} (h : fs.Perm fs')
    (hn : (fs.map Fragment.name).Nodup) : Shuffled (.bundle op fs) (.bundle op fs') :=
  ⟨op, fs, fs', rfl, rfl, h, hn⟩

theorem shuffled_apply (h : Shuffled d d') {e : Edit} (he : e.definitions = id) :
    Shuffled (e.apply d) (e.apply d') := by
  obtain ⟨op, fs, fs', rfl, rfl, hp, hn⟩ := h
  rw [Document.apply_bundle he, Document.apply_bundle he]
  refine shuffled_bundle (hp.map e.onFragment) ?_
  rw [List.map_map]
  exact hn

/-- Some fragments are dropped from both. -/
theorem shuffled_dropFragments (h : Shuffled d d') (names : List String) :
    Shuffled (dropFragments names d) (dropFragments names d') := by
  obtain ⟨op, fs, fs', rfl, rfl, hp, hn⟩ := h
  rw [dropFragments_bundle, dropFragments_bundle]
  refine shuffled_bundle ((hp.filter _).map _) ?_
  rw [List.map_map]
  exact (List.filter_sublist.map _).nodup hn

/-- Which names are dropped matters, not their order. -/
theorem dropFragments_congr {names names' : List String} (h : ∀ n, n ∈ names ↔ n ∈ names') :
    dropFragments names = dropFragments names' := by
  have hc : ∀ n, names.contains n = names'.contains n := by
    intro n
    rw [Bool.eq_iff_iff, List.contains_iff_mem, List.contains_iff_mem]
    exact h n
  have hu : isUse names = isUse names' := by
    funext s
    cases s <;> simp only [isUse, hc]
  have hf : isFragmentOf names = isFragmentOf names' := by
    funext x
    cases x <;> simp only [isFragmentOf, hc]
  funext d
  rw [dropFragments, dropFragments, hu, hf]

/-- The same fragments are empty in both. -/
theorem Shuffled.emptyFragments_perm (h : Shuffled d d') :
    (emptyFragments d).Perm (emptyFragments d') := by
  obtain ⟨op, fs, fs', rfl, rfl, hp, -⟩ := h
  rw [emptyFragments, emptyFragments, Document.fragments_bundle, Document.fragments_bundle]
  exact (hp.filter _).map _

/-- A round for the one is a round for the other. -/
theorem shuffled_dropEmptyFragments (h : Shuffled d d') :
    Shuffled (dropEmptyFragments d) (dropEmptyFragments d') := by
  fun_induction dropEmptyFragments d generalizing d' with
  | case1 d hd =>
    have hp := h.emptyFragments_perm
    rw [hd, List.nil_perm] at hp
    rwa [dropEmptyFragments, dif_pos hp]
  | case2 d hd ih =>
    have hp := h.emptyFragments_perm
    have hd' : emptyFragments d' ≠ [] := fun hn => hd (List.perm_nil.mp (hn ▸ hp))
    have hround : dropEmptyFragments d' =
        dropEmptyFragments (dropFragments (emptyFragments d') d') := by
      conv_lhs => rw [dropEmptyFragments, dif_neg hd']
    rw [hround, ← dropFragments_congr fun n => hp.mem_iff]
    exact ih (shuffled_dropFragments h _)

/-- The same fragments are used in both. -/
theorem shuffled_dropUnusedFragments (h : Shuffled d d') :
    Shuffled (dropUnusedFragments d) (dropUnusedFragments d') := by
  obtain ⟨op, fs, fs', rfl, rfl, hp, hn⟩ := h
  have hsame : ∀ name, fragmentNamed? fs name = fragmentNamed? fs' name :=
    fragmentNamed?_eq_of_perm hp hn
  have hr : ∀ n, n ∈ (reach fs op.selections).names ↔ n ∈ (reach fs' op.selections).names := by
    intro n
    rw [mem_names_reach, mem_names_reach, hsame]
    refine and_congr_left fun _ => ⟨?_, ?_⟩
    · exact Reachable.mono (List.Subset.refl _) fun n f hf =>
        ⟨f, hsame n ▸ hf, List.Subset.refl _⟩
    · exact Reachable.mono (List.Subset.refl _) fun n f hf =>
        ⟨f, (hsame n).symm ▸ hf, List.Subset.refl _⟩
  have hk : (fun f : Fragment => (reach fs op.selections).names.contains f.name) =
      fun f => (reach fs' op.selections).names.contains f.name := by
    funext f
    rw [Bool.eq_iff_iff, List.contains_iff_mem, List.contains_iff_mem]
    exact hr f.name
  rw [dropUnusedFragments_bundle, dropUnusedFragments_bundle, hk]
  exact shuffled_bundle (hp.filter _) ((List.filter_sublist.map _).nodup hn)

/-- What the server is to see of both differs in the order of fragments alone. -/
theorem shuffled_serverSide (h : Shuffled d d') (s : Settings) :
    Shuffled (serverSide s d) (serverSide s d') := by
  have ht : Shuffled (if s.addTypename then addTypename d else d)
      (if s.addTypename then addTypename d' else d') := by
    split
    · exact shuffled_apply h rfl
    · exact h
  have he : ∀ {d d'}, Shuffled d d' → Shuffled (eraseClientFields s.clientSchemaDirectives d)
      (eraseClientFields s.clientSchemaDirectives d') := by
    intro d d' h
    unfold eraseClientFields
    split
    · exact h
    · exact shuffled_dropUnusedFragments (shuffled_dropEmptyFragments (shuffled_apply h rfl))
  exact shuffled_apply (he ht) rfl

/-- Something is left of both operations or of neither. -/
theorem Shuffled.isClientOnly_eq (h : Shuffled d d') : isClientOnly d = isClientOnly d' := by
  obtain ⟨op, fs, fs', rfl, rfl, -, -⟩ := h
  simp [isClientOnly]

/-- In canonical order the two are the same. -/
theorem Shuffled.sort_eq (h : Shuffled d d') : Signature.sort d = Signature.sort d' := by
  obtain ⟨op, fs, fs', rfl, rfl, hp, hn⟩ := h
  have hd : (Signature.sort (.bundle op fs)).definitions =
      (Signature.sort (.bundle op fs')).definitions := by
    rw [Signature.definitions_sort, Signature.definitions_sort]
    refine Signature.sortByKey_eq_of_perm (((hp.map _).cons _).map _) ?_
    have hop : ∀ f ∈ fs, Signature.definitionKey (.fragment f) ≠
        Signature.definitionKey (.operation op) := by
      intro f _ he
      have hrank := congrArg Signature.Key.rank he
      cases ho : op.name <;> simp [Signature.definitionKey, ho] at hrank
    have hfs : (fs.map fun f => Signature.definitionKey (.fragment f)).Nodup := by
      have hk : ((fs.map Fragment.name).map Signature.Key.ofName).Nodup :=
        List.Pairwise.map _ (fun a b hab he => hab (congrArg Signature.Key.name he)) hn
      rwa [List.map_map] at hk
    have hnew : Signature.definitionKey (.operation op) ∉
        fs.map fun f => Signature.definitionKey (.fragment f) := by
      simpa using hop
    have hall := List.nodup_cons.mpr ⟨hnew, hfs⟩
    simpa [Document.bundle, Function.comp_def] using hall
  exact congrArg Document.mk hd

end Client

end Safelist
