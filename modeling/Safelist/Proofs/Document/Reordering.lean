import Mathlib.Data.List.Forall2
import Safelist.Proofs.Document.Registration

/-!
# Selections in another order

The selections of a set can be put in another order, and so can those of the sets
inside. This neither uses other fragments nor empties a set, so a document that
can be registered can be registered in any order of its selections.
-/

namespace Safelist

/-- A selection in which selection sets, at any depth, have been put in another order. Which orders
are allowed is left open. -/
inductive Selection.Reordered (order : List Selection → List Selection → Prop) :
    Selection → Selection → Prop
  /-- There is nothing to put in order below a field without selection set. -/
  | leaf (f : Field) : Selection.Reordered order (.leaf f) (.leaf f)
  /-- The selections of a field are reordered one by one, and then put in another order. -/
  | nested (f : Field) {set mid set' : List Selection}
    (each : List.Forall₂ (Selection.Reordered order) set mid) (h : order mid set') :
    Selection.Reordered order (.nested f set) (.nested f set')
  /-- There is nothing to put in order below the use of a fragment. -/
  | spread (use : Spread) : Selection.Reordered order (.spread use) (.spread use)
  /-- The selections of an inline fragment are reordered one by one, and then put in another
  order. -/
  | inline (head : InlineHead) {set mid set' : List Selection}
    (each : List.Forall₂ (Selection.Reordered order) set mid) (h : order mid set') :
    Selection.Reordered order (.inline head set) (.inline head set')

variable {order : List Selection → List Selection → Prop}

/-- A selection set that is put in another order, and so are the sets in it. -/
def SetReordered (order : List Selection → List Selection → Prop)
    (set set' : List Selection) : Prop :=
  ∃ mid, List.Forall₂ (Selection.Reordered order) set mid ∧ order mid set'

/-- An operation with its selections in another order. -/
structure Operation.Reordered (order : List Selection → List Selection → Prop)
    (op op' : Operation) : Prop where
  /-- Nothing but the selections changes. -/
  eq : op' = { op with selections := op'.selections }
  /-- The selections are put in another order. -/
  selections : SetReordered order op.selections op'.selections

/-- A fragment with its selections in another order. -/
structure Fragment.Reordered (order : List Selection → List Selection → Prop)
    (f f' : Fragment) : Prop where
  /-- Nothing but the selections changes. -/
  eq : f' = { f with selections := f'.selections }
  /-- The selections are put in another order. -/
  selections : SetReordered order f.selections f'.selections

/-- A definition with its selections in another order. -/
def Definition.Reordered (order : List Selection → List Selection → Prop) :
    Definition → Definition → Prop
  | .operation op, .operation op' => op.Reordered order op'
  | .fragment f, .fragment f' => f.Reordered order f'
  | _, _ => False

/-- A document with selections in another order. The definitions stay where they are. -/
def Document.Reordered (order : List Selection → List Selection → Prop) (a b : Document) : Prop :=
  List.Forall₂ (Definition.Reordered order) a.definitions b.definitions

/-- What is related one by one comes from what it is related to. -/
theorem exists_mem_of_forall₂ {α β : Type} {R : α → β → Prop} {xs : List α} {ys : List β}
    (h : List.Forall₂ R xs ys) : ∀ y ∈ ys, ∃ x ∈ xs, R x y := by
  induction h with
  | nil => simp
  | cons hxy _ ih =>
    refine List.forall_mem_cons.mpr ⟨⟨_, List.mem_cons_self, hxy⟩, fun y hy => ?_⟩
    obtain ⟨x, hx, hR⟩ := ih y hy
    exact ⟨x, List.mem_cons_of_mem _ hx, hR⟩

section Anyhow

variable {set set' : List Selection}

/-- Every selection of a reordered set comes from one of the set, and from what can be said of the
two. -/
theorem SetReordered.exists_mem_of {motive : Selection → Selection → Prop}
    (h : SetReordered List.Perm set set')
    (hs : ∀ s ∈ set, ∀ t, s.Reordered List.Perm t → motive s t) :
    ∀ t ∈ set', ∃ s ∈ set, motive s t := by
  obtain ⟨mid, each, hp⟩ := h
  intro t ht
  obtain ⟨s, hm, hst⟩ := exists_mem_of_forall₂ each t (hp.mem_iff.mpr ht)
  exact ⟨s, hm, hs s hm t hst⟩

theorem SetReordered.length_eq (h : SetReordered List.Perm set set') :
    set.length = set'.length := by
  obtain ⟨mid, each, hp⟩ := h
  rw [each.length_eq, hp.length_eq]

theorem SetReordered.ne_nil (h : SetReordered List.Perm set set') (hne : set ≠ []) : set' ≠ [] := by
  rw [← List.length_pos_iff, ← h.length_eq]
  exact List.length_pos_iff.mpr hne

/-- What passes from selections to sets put in any other order, and from these to the selections
that hold them, holds of all reordered selections. -/
theorem Selection.Reordered.induction {motive : Selection → Selection → Prop}
    (leaf : ∀ f, motive (.leaf f) (.leaf f))
    (nested : ∀ f set set', SetReordered List.Perm set set' →
      (∀ t ∈ set', ∃ s ∈ set, motive s t) → motive (.nested f set) (.nested f set'))
    (spread : ∀ use, motive (.spread use) (.spread use))
    (inline : ∀ head set set', SetReordered List.Perm set set' →
      (∀ t ∈ set', ∃ s ∈ set, motive s t) → motive (.inline head set) (.inline head set'))
    {s t : Selection} (h : s.Reordered List.Perm t) : motive s t := by
  induction s generalizing t with
  | leaf f =>
    cases h
    exact leaf f
  | nested f set ih =>
    cases h with
    | nested _ each hp =>
      have hset : SetReordered List.Perm set _ := ⟨_, each, hp⟩
      exact nested f set _ hset (hset.exists_mem_of fun s hs t => ih s hs)
  | spread use =>
    cases h
    exact spread use
  | inline head set ih =>
    cases h with
    | inline _ each hp =>
      have hset : SetReordered List.Perm set _ := ⟨_, each, hp⟩
      exact inline head set _ hset (hset.exists_mem_of fun s hs t => ih s hs)

/-- What passes from some selection of a set to each of another passes from the set to the other. -/
theorem forall_mem_of_imp {P : Selection → Prop} (h : ∀ t ∈ set', ∃ s ∈ set, P s → P t)
    (hs : ∀ s ∈ set, P s) : ∀ t ∈ set', P t := by
  intro t ht
  obtain ⟨s, hm, hst⟩ := h t ht
  exact hst (hs s hm)

/-- A set uses no fragments that another does not, if this is so for its selections. -/
theorem setUses_subset_of (h : ∀ t ∈ set', ∃ s ∈ set, t.uses ⊆ s.uses) :
    Selection.setUses set' ⊆ Selection.setUses set := by
  intro name hn
  rw [Selection.setUses_eq_flatMap, List.mem_flatMap] at hn ⊢
  obtain ⟨t, ht, hn⟩ := hn
  obtain ⟨s, hs, hst⟩ := h t ht
  exact ⟨s, hs, hst hn⟩

theorem Selection.Reordered.uses_subset {s t : Selection} (h : s.Reordered List.Perm t) :
    t.uses ⊆ s.uses :=
  h.induction (motive := fun s t => t.uses ⊆ s.uses) (fun _ _ => id)
    (fun _ _ _ _ => setUses_subset_of) (fun _ _ => id) fun _ _ _ _ => setUses_subset_of

/-- In another order no other fragments are used. -/
theorem SetReordered.setUses_subset (h : SetReordered List.Perm set set') :
    Selection.setUses set' ⊆ Selection.setUses set :=
  setUses_subset_of (h.exists_mem_of fun _ _ _ => Selection.Reordered.uses_subset)

theorem Selection.Reordered.filled {s t : Selection} (h : s.Reordered List.Perm t) :
    s.Filled → t.Filled := by
  refine h.induction (motive := fun s t => s.Filled → t.Filled) (fun f _ => .leaf f) ?_
    (fun use _ => .spread use) ?_
  · intro f set set' hset hs hf
    cases hf with
    | nested _ hne hf => exact .nested f (hset.ne_nil hne) (forall_mem_of_imp hs hf)
  · intro head set set' hset hs hf
    cases hf with
    | inline _ hne hf => exact .inline head (hset.ne_nil hne) (forall_mem_of_imp hs hf)

/-- No set is emptied by another order. -/
theorem SetReordered.filledSet (h : SetReordered List.Perm set set') (hf : FilledSet set) :
    FilledSet set' where
  ne_nil := h.ne_nil hf.ne_nil
  filled := forall_mem_of_imp (h.exists_mem_of fun _ _ _ => Selection.Reordered.filled) hf.filled

theorem Selection.Reordered.wellSpelled {s t : Selection} (h : s.Reordered List.Perm t) :
    s.WellSpelled → t.WellSpelled := by
  refine h.induction (motive := fun s t => s.WellSpelled → t.WellSpelled) (fun _ => id) ?_
    (fun _ => id) ?_
  · intro f set set' _ hs hw
    cases hw with
    | nested hf hw => exact .nested hf (forall_mem_of_imp hs hw)
  · intro head set set' _ hs hw
    cases hw with
    | inline hhead hw => exact .inline hhead (forall_mem_of_imp hs hw)

/-- Selections that can be written can be written in another order. -/
theorem SetReordered.wellSpelled (h : SetReordered List.Perm set set')
    (hw : ∀ s ∈ set, s.WellSpelled) : ∀ t ∈ set', t.WellSpelled :=
  forall_mem_of_imp (h.exists_mem_of fun _ _ _ => Selection.Reordered.wellSpelled) hw

end Anyhow

namespace Document.Reordered

variable {a b : Document}

theorem operations (h : a.Reordered order b) :
    List.Forall₂ (Operation.Reordered order) a.operations b.operations := by
  refine List.rel_filterMap ?_ h
  intro x y hxy
  cases x <;> cases y <;> simp_all [Definition.Reordered, Definition.operation?]

theorem fragments (h : a.Reordered order b) :
    List.Forall₂ (Fragment.Reordered order) a.fragments b.fragments := by
  refine List.rel_filterMap ?_ h
  intro x y hxy
  cases x <;> cases y <;> simp_all [Definition.Reordered, Definition.fragment?]

/-- Fragments keep their names. -/
theorem fragment_names (h : a.Reordered order b) :
    b.fragments.map Fragment.name = a.fragments.map Fragment.name := by
  have hn : List.Forall₂ (· = ·) (a.fragments.map Fragment.name) (b.fragments.map Fragment.name) :=
    List.rel_map (fun f f' hf => by rw [hf.eq]) h.fragments
  rw [List.forall₂_eq_eq_eq] at hn
  exact hn.symm

/-- A document that can be written can be written with its selections in another order. -/
theorem wellSpelled (h : a.Reordered List.Perm b) (ha : ∀ x ∈ a.definitions, x.WellSpelled) :
    ∀ y ∈ b.definitions, y.WellSpelled := by
  intro y hy
  obtain ⟨x, hx, hxy⟩ := exists_mem_of_forall₂ h y hy
  have hw := ha x hx
  cases x with
  | operation op =>
    cases y with
    | operation op' =>
      obtain ⟨heq, hset⟩ := hxy
      rw [heq]
      exact { hw with selections := hset.wellSpelled hw.selections }
    | fragment f' => exact hxy.elim
  | fragment f =>
    cases y with
    | operation op' => exact hxy.elim
    | fragment f' =>
      obtain ⟨heq, hset⟩ := hxy
      rw [heq]
      exact { hw with selections := hset.wellSpelled hw.selections }

/-- What is reachable in another order is reachable. -/
theorem reachable (h : a.Reordered List.Perm b) (hn : (a.fragments.map Fragment.name).Nodup)
    {set set' : List Selection} (hset : SetReordered List.Perm set set') {name : String}
    (hr : Reachable b.fragments set' name) : Reachable a.fragments set name := by
  refine hr.mono hset.setUses_subset fun name f' hf' => ?_
  obtain ⟨hm, rfl⟩ := (fragmentNamed?_eq_some_iff (h.fragment_names ▸ hn)).mp hf'
  obtain ⟨f, hf, hff'⟩ := exists_mem_of_forall₂ h.fragments f' hm
  have hname : f.name = f'.name := by rw [hff'.eq]
  exact ⟨f, (fragmentNamed?_eq_some_iff hn).mpr ⟨hf, hname⟩, hff'.selections.setUses_subset⟩

/-- A document that can be registered can be registered with its selections in another order. -/
theorem registers (h : a.Reordered List.Perm b) {op : Operation} (ha : a.Registers op) :
    ∃ op', b.Registers op' := by
  have hops := h.operations
  rw [ha.operations, List.forall₂_cons_left_iff] at hops
  obtain ⟨op', rest, hop, hrest, hb⟩ := hops
  rw [List.forall₂_nil_left_iff] at hrest
  subst hrest
  refine ⟨op', hb, ?_, fun f' hf' => ?_, hop.selections.filledSet ha.selections, fun name hr => ?_⟩
  · rw [h.fragment_names]
    exact ha.nodup
  · obtain ⟨f, hf, hff'⟩ := exists_mem_of_forall₂ h.fragments f' hf'
    exact hff'.selections.filledSet (ha.fragments f hf)
  · have hused := ha.used name (h.reachable ha.nodup hop.selections hr)
    rw [isSome_fragmentNamed?_iff] at hused ⊢
    rwa [h.fragment_names]

end Document.Reordered

end Safelist
