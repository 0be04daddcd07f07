import Safelist.Proofs.Document.Reachability

/-!
# The first unknown name

Breadth-first order goes by layers: what a selection set uses itself, then what the
fragments use that these names mean, and so on. Exploring looks names up in this
order and leaves out those it has come upon before. A name that is left out means a
fragment, and what that fragment uses waits already. So the first name that exploring
misses is the first one in breadth-first order that no fragment has.
-/

namespace Safelist

/-- What the fragment uses that a name means. -/
def usesOf (fragments : List Fragment) (name : String) : List String :=
  match fragmentNamed? fragments name with
  | some f => Selection.setUses f.selections
  | none => []

/-- The names that so many fragments lie before, in order and with repetitions. -/
def layer (fragments : List Fragment) (set : List Selection) : Nat → List String
  | 0 => Selection.setUses set
  | n + 1 => (layer fragments set n).flatMap (usesOf fragments)

/-- The first name in breadth-first order that no fragment has. -/
def IsFirstUnknown (fragments : List Fragment) (set : List Selection) (name : String) : Prop :=
  ∃ n before after, layer fragments set n = before ++ name :: after ∧
    fragmentNamed? fragments name = none ∧ (∀ a ∈ before, (fragmentNamed? fragments a).isSome) ∧
    ∀ m < n, ∀ a ∈ layer fragments set m, (fragmentNamed? fragments a).isSome

variable {fragments pool : List Fragment} {set : List Selection} {name : String}

theorem usesOf_eq {f : Fragment} (hf : fragmentNamed? fragments name = some f) :
    usesOf fragments name = Selection.setUses f.selections := by
  simp [usesOf, hf]

/-- What is in a layer is reachable. -/
theorem reachable_of_mem_layer {n : Nat} (h : name ∈ layer fragments set n) :
    Reachable fragments set name := by
  induction n generalizing name with
  | zero => exact .direct h
  | succ n ih =>
    obtain ⟨a, ha, hu⟩ := List.mem_flatMap.mp h
    unfold usesOf at hu
    split at hu
    · rename_i f hf
      exact (ih ha).through hf hu
    · cases hu

theorem IsFirstUnknown.reachable (h : IsFirstUnknown fragments set name) :
    Reachable fragments set name := by
  obtain ⟨n, before, after, hn, -⟩ := h
  exact reachable_of_mem_layer (n := n) (hn ▸ List.mem_append_right _ List.mem_cons_self)

theorem IsFirstUnknown.unknown (h : IsFirstUnknown fragments set name) :
    fragmentNamed? fragments name = none := by
  obtain ⟨n, before, after, -, hu, -⟩ := h
  exact hu

/-- There is one first unknown name at most. -/
theorem IsFirstUnknown.unique {name' : String} (h : IsFirstUnknown fragments set name)
    (h' : IsFirstUnknown fragments set name') : name = name' := by
  obtain ⟨n, before, after, hn, hu, hb, hm⟩ := h
  obtain ⟨n', before', after', hn', hu', hb', hm'⟩ := h'
  have hin : name ∈ layer fragments set n := hn ▸ List.mem_append_right _ List.mem_cons_self
  have hin' : name' ∈ layer fragments set n' := hn' ▸ List.mem_append_right _ List.mem_cons_self
  have hknown : ∀ {a : String}, fragmentNamed? fragments a = none →
      ¬(fragmentNamed? fragments a).isSome := fun ha => by simp [ha]
  obtain hlt | rfl | hlt := Nat.lt_trichotomy n n'
  · exact absurd (hm' n hlt name hin) (hknown hu)
  · -- In one layer, neither name stands before the other.
    obtain ⟨middle, hsplit, hrest⟩ | ⟨middle, hsplit, hrest⟩ :=
      List.append_eq_append_iff.mp (hn.symm.trans hn')
    · cases middle with
      | nil => exact (List.cons.inj hrest).1
      | cons a middle =>
        obtain ⟨rfl, -⟩ := List.cons.inj hrest
        exact absurd (hb' name (by simp [hsplit])) (hknown hu)
    · cases middle with
      | nil => exact (List.cons.inj hrest).1.symm
      | cons a middle =>
        obtain ⟨rfl, -⟩ := List.cons.inj hrest
        exact absurd (hb name' (by simp [hsplit])) (hknown hu')
  · exact absurd (hm n' hlt name' hin') (hknown hu')

/-- The second list is the first one without some names, each of which has been seen or is kept
earlier. -/
inductive Thinned : List String → List String → List String → Prop
  /-- Nothing is left of nothing. -/
  | nil {seen : List String} : Thinned seen [] []
  /-- A name is kept, and is seen from here on. -/
  | keep {seen xs ys : List String} {name : String} (h : Thinned (name :: seen) xs ys) :
    Thinned seen (name :: xs) (name :: ys)
  /-- A name that has been seen is left out. -/
  | drop {seen xs ys : List String} {name : String} (hn : name ∈ seen) (h : Thinned seen xs ys) :
    Thinned seen (name :: xs) ys

namespace Thinned

variable {seen seen' xs xs' ys ys' : List String}

/-- More may have been seen. -/
theorem mono (h : Thinned seen xs ys) (hs : seen ⊆ seen') : Thinned seen' xs ys := by
  induction h generalizing seen' with
  | nil => exact .nil
  | keep _ ih => exact .keep (ih (List.cons_subset_cons _ hs))
  | drop hn _ ih => exact .drop (hs hn) (ih hs)

/-- Names behind others are thinned where those that are kept have been seen. -/
theorem append (h : Thinned seen xs ys) (h' : Thinned (seen ++ ys) xs' ys') :
    Thinned seen (xs ++ xs') (ys ++ ys') := by
  induction h with
  | nil => simpa using h'
  | keep _ ih => exact .keep (ih (h'.mono (by simp)))
  | drop hn _ ih => exact .drop hn (ih h')

/-- Names that have all been seen are left out. -/
theorem of_subset (h : xs ⊆ seen) : Thinned seen xs [] := by
  induction xs with
  | nil => exact .nil
  | cons a xs ih =>
    rw [List.cons_subset] at h
    exact .drop h.1 (ih h.2)

/-- Names that have been seen and repetitions are left out. -/
theorem eraseDups_filter (seen xs : List String) :
    Thinned seen xs (xs.filter fun a => !seen.contains a).eraseDups := by
  induction xs generalizing seen with
  | nil => exact .nil
  | cons a xs ih =>
    by_cases ha : a ∈ seen
    · rw [List.filter_cons_of_neg (by simpa using ha)]
      exact .drop ha (ih seen)
    · rw [List.filter_cons_of_pos (by simpa using ha), List.eraseDups_cons, List.filter_filter]
      have hmore := ih (a :: seen)
      simp only [List.contains_cons, Bool.not_or] at hmore
      exact .keep hmore

theorem eraseDups (xs : List String) : Thinned seen xs xs.eraseDups := by
  have h := eraseDups_filter [] xs
  rw [List.filter_eq_self.mpr (by simp)] at h
  exact h.mono (List.nil_subset seen)

/-- Before the first name that is kept, all have been seen. -/
theorem exists_of_cons (h : Thinned seen xs (name :: ys)) :
    ∃ before after, xs = before ++ name :: after ∧ before ⊆ seen ∧
      Thinned (name :: seen) after ys := by
  generalize hq : name :: ys = q at h
  induction h with
  | nil => cases hq
  | @keep seen xs ys name h =>
    obtain ⟨rfl, rfl⟩ := List.cons.inj hq
    exact ⟨[], xs, rfl, List.nil_subset _, h⟩
  | @drop seen xs ys first hn h ih =>
    obtain ⟨before, after, rfl, hb, ha⟩ := ih hq
    exact ⟨first :: before, after, rfl, List.cons_subset.mpr ⟨hn, hb⟩, ha⟩

/-- Where nothing is kept, all have been seen. -/
theorem subset (h : Thinned seen xs []) : xs ⊆ seen := by
  generalize hq : ([] : List String) = q at h
  induction h with
  | nil => exact List.nil_subset _
  | keep => cases hq
  | drop hn _ ih => exact List.cons_subset.mpr ⟨hn, ih hq⟩

end Thinned

namespace Reach

variable {found : Reach} {queue done todo now next : List String} {n : Nat}

/-- As long as nothing is missed, all that fragments found use has been found or waits. -/
theorem Exploring.usesOf_subset (h : Exploring fragments set pool found queue)
    (hm : found.missing = []) {names : List String} (hn : names ⊆ found.names) :
    names.flatMap (usesOf fragments) ⊆ found.names ++ queue := by
  intro used hu
  obtain ⟨name, hname, hu⟩ := List.mem_flatMap.mp hu
  obtain ⟨f, hf, rfl⟩ := List.mem_map.mp (hn hname)
  rw [usesOf_eq (h.meant f hf).1] at hu
  obtain hu | hu | hu := h.through f hf used hu
  · exact List.mem_append_left _ hu
  · simp [hm] at hu
  · exact List.mem_append_right _ hu

/-- Exploring is in the middle of a layer: what is left of the layer waits first, and behind it what
is left of the next one so far. -/
structure Layered (fragments : List Fragment) (set : List Selection) (found : Reach) (n : Nat)
    (done todo now next : List String) : Prop where
  /-- The layer has a part that is done and a part that is not. -/
  layer_eq : layer fragments set n = done ++ todo
  /-- Names of the layers before have been found. -/
  before_subset : ∀ m < n, layer fragments set m ⊆ found.names
  /-- The names that are done have been found. -/
  done_subset : done ⊆ found.names
  /-- What waits first is the rest of this layer, except for what has been found. -/
  thinned_now : Thinned found.names todo now
  /-- What waits behind it is used by what is done, except for what has been found or waits. -/
  thinned_next : Thinned (found.names ++ now) (done.flatMap (usesOf fragments)) next

/-- Names that have been found can be done without a look. -/
theorem Layered.pass (h : Layered fragments set found n done todo now next)
    (he : Exploring fragments set pool found (now ++ next)) (hm : found.missing = [])
    {before after : List String} (htodo : todo = before ++ after) (hb : before ⊆ found.names)
    (hafter : Thinned found.names after now) :
    Layered fragments set found n (done ++ before) after now next := by
  have huses := he.usesOf_subset hm hb
  rw [← List.append_assoc] at huses
  refine ⟨by rw [h.layer_eq, htodo, List.append_assoc], h.before_subset,
    List.append_subset.mpr ⟨h.done_subset, hb⟩, hafter, ?_⟩
  have hnext := h.thinned_next.append (.of_subset huses)
  rwa [List.append_nil, ← List.flatMap_append] at hnext

/-- The next layer begins once nothing of a layer waits. -/
theorem Layered.begin (h : Layered fragments set found n done todo [] next)
    (he : Exploring fragments set pool found next) (hm : found.missing = []) :
    Layered fragments set found (n + 1) [] (layer fragments set (n + 1)) next [] := by
  have hall : Layered fragments set found n (done ++ todo) [] [] next :=
    h.pass he hm (List.append_nil todo).symm h.thinned_now.subset .nil
  refine ⟨rfl, fun m hmn => ?_, List.nil_subset _, ?_, .nil⟩
  · obtain hmn | rfl := Nat.lt_succ_iff_lt_or_eq.mp hmn
    · exact h.before_subset m hmn
    · rw [h.layer_eq]
      exact hall.done_subset
  · have hnext := hall.thinned_next
    rw [← h.layer_eq, List.append_nil] at hnext
    exact hnext

/-- The name that waits first may be taken for the first that is left of a layer. -/
theorem Layered.exists_cons (h : Layered fragments set found n done todo (name :: now) next)
    (he : Exploring fragments set pool found (name :: now ++ next)) (hm : found.missing = []) :
    ∃ done after, Layered fragments set found n done (name :: after) (name :: now) next ∧
      Thinned (name :: found.names) after now := by
  obtain ⟨before, after, htodo, hb, ha⟩ := h.thinned_now.exists_of_cons
  exact ⟨done ++ before, after, h.pass he hm htodo hb (.keep ha), ha⟩

/-- A name that has been found is passed. -/
theorem Layered.skip {after : List String}
    (h : Layered fragments set found n done (name :: after) (name :: now) next)
    (ha : Thinned (name :: found.names) after now) (hn : name ∈ found.names)
    (he : Exploring fragments set pool found (now ++ next)) (hm : found.missing = []) :
    Layered fragments set found n (done ++ [name]) after now next := by
  have hsub : name :: found.names ⊆ found.names := List.cons_subset.mpr ⟨hn, List.Subset.refl _⟩
  have hnow : Thinned found.names after now := ha.mono hsub
  have hnext : Thinned (found.names ++ now) (done.flatMap (usesOf fragments)) next := by
    refine h.thinned_next.mono ?_
    simp [List.append_subset, hn]
  have hrest : Layered fragments set found n done (name :: after) now next :=
    ⟨h.layer_eq, h.before_subset, h.done_subset, .drop hn hnow, hnext⟩
  exact hrest.pass he hm List.singleton_append.symm (by simpa using hn) hnow

/-- A name that means a fragment is done once that fragment is found. -/
theorem Layered.take {after : List String} {f : Fragment}
    (h : Layered fragments set found n done (name :: after) (name :: now) next)
    (ha : Thinned (name :: found.names) after now) (hf : fragmentNamed? fragments name = some f)
    (hname : f.name = name) :
    Layered fragments set { found with fragments := found.fragments ++ [f] } n (done ++ [name])
      after now (next ++ spreads f.selections) := by
  have hnames : Reach.names { found with fragments := found.fragments ++ [f] } =
      found.names ++ [name] := by
    rw [names_append, List.map_singleton, hname]
  have hsub : found.names ⊆ found.names ++ [name] := List.subset_append_left _ _
  refine ⟨by simp [h.layer_eq], fun m hmn => ?_, ?_, ?_, ?_⟩
  · rw [hnames]
    exact List.Subset.trans (h.before_subset m hmn) hsub
  · rw [hnames]
    exact List.append_subset.mpr
      ⟨List.Subset.trans h.done_subset hsub, List.subset_append_right _ _⟩
  · rw [hnames]
    exact ha.mono (by simp)
  · rw [hnames, List.append_assoc, List.singleton_append, List.flatMap_append,
      List.flatMap_singleton, usesOf_eq hf]
    exact h.thinned_next.append (Thinned.eraseDups _)

/-- A name that is missed while nothing else has been is the first unknown name. -/
theorem Layered.isFirstUnknown {after : List String}
    (h : Layered fragments set found n done (name :: after) (name :: now) next)
    (he : Exploring fragments set pool found queue) (hf : fragmentNamed? fragments name = none) :
    IsFirstUnknown fragments set name := by
  have hknown : ∀ a ∈ found.names, (fragmentNamed? fragments a).isSome := by
    intro a ha
    obtain ⟨g, hg, rfl⟩ := List.mem_map.mp ha
    rw [(he.meant g hg).1]
    rfl
  exact ⟨n, done, after, h.layer_eq, hf, fun a ha => hknown a (h.done_subset ha),
    fun m hmn a ha => hknown a (h.before_subset m hmn ha)⟩

/-- What exploring keeps: as long as nothing is missed it goes through the layers, and the first
name that is missed is the first unknown name. -/
structure Sweeping (fragments : List Fragment) (set : List Selection) (pool : List Fragment)
    (found : Reach) (queue : List String) : Prop where
  /-- Exploring is right so far. -/
  exploring : Exploring fragments set pool found queue
  /-- As long as nothing is missed, exploring is in the middle of a layer. -/
  layered : found.missing = [] → ∃ n done todo now next, queue = now ++ next ∧
    Layered fragments set found n done todo now next
  /-- The first name missed is the first unknown name. -/
  first : ∀ name ∈ found.missing.head?, IsFirstUnknown fragments set name

theorem sweeping_initial (fragments : List Fragment) (set : List Selection) :
    Sweeping fragments set fragments ⟨[], []⟩ (spreads set) where
  exploring := exploring_initial fragments set
  layered _ := ⟨0, [], Selection.setUses set, spreads set, [], (List.append_nil _).symm, rfl,
    fun m hm => absurd hm (Nat.not_lt_zero m), List.nil_subset _, Thinned.eraseDups _, .nil⟩
  first := by simp

/-- The name at the head of the queue is the first that is left of a layer. -/
theorem Sweeping.exists_layered (h : Sweeping fragments set pool found (name :: queue))
    (hm : found.missing = []) : ∃ n done after now next, queue = now ++ next ∧
      Layered fragments set found n done (name :: after) (name :: now) next ∧
      Thinned (name :: found.names) after now := by
  obtain ⟨n, done, todo, now, next, hq, hl⟩ := h.layered hm
  have he := h.exploring
  cases now with
  | nil =>
    obtain rfl : name :: queue = next := hq
    obtain ⟨done, after, hl, ha⟩ := (hl.begin he hm).exists_cons (by simpa using he) hm
    exact ⟨n + 1, done, after, queue, [], (List.append_nil queue).symm, hl, ha⟩
  | cons first now =>
    obtain ⟨rfl, rfl⟩ := List.cons.inj hq
    obtain ⟨done, after, hl, ha⟩ := hl.exists_cons he hm
    exact ⟨n, done, after, now, next, rfl, hl, ha⟩

theorem Sweeping.take (h : Sweeping fragments set pool found (name :: queue)) {f : Fragment}
    (hf : pool.find? (·.name == name) = some f) :
    Sweeping fragments set (pool.filter (·.name != name))
      { found with fragments := found.fragments ++ [f] } (queue ++ spreads f.selections) := by
  refine ⟨h.exploring.take hf, fun hm => ?_, h.first⟩
  obtain ⟨n, done, after, now, next, rfl, hl, ha⟩ := h.exists_layered hm
  have hn : name ∉ found.names := fun hn => by
    rw [h.exploring.find?_pool_of_mem hn] at hf
    cases hf
  have hmeant : fragmentNamed? fragments name = some f := by
    rw [← h.exploring.find?_pool hn, hf]
  exact ⟨n, done ++ [name], after, now, next ++ spreads f.selections, List.append_assoc _ _ _,
    hl.take ha hmeant (by simpa using List.find?_some hf)⟩

theorem Sweeping.skip (h : Sweeping fragments set pool found (name :: queue))
    (hv : name ∈ found.names ∨ name ∈ found.missing) : Sweeping fragments set pool found queue := by
  refine ⟨h.exploring.skip hv, fun hm => ?_, h.first⟩
  obtain ⟨n, done, after, now, next, rfl, hl, ha⟩ := h.exists_layered hm
  have hn : name ∈ found.names := hv.resolve_right (by simp [hm])
  exact ⟨n, done ++ [name], after, now, next, rfl, hl.skip ha hn (h.exploring.skip hv) hm⟩

theorem Sweeping.miss (h : Sweeping fragments set pool found (name :: queue))
    (hn : name ∉ found.names) (hf : pool.find? (·.name == name) = none) :
    Sweeping fragments set pool { found with missing := found.missing ++ [name] } queue := by
  refine ⟨h.exploring.miss hn hf, by simp, ?_⟩
  cases hm : found.missing with
  | nil =>
    obtain ⟨n, done, after, now, next, -, hl, -⟩ := h.exists_layered hm
    have hmeant : fragmentNamed? fragments name = none := by
      rw [← h.exploring.find?_pool hn, hf]
    simpa using hl.isFirstUnknown h.exploring hmeant
  | cons first rest =>
    have hfirst := h.first
    rw [hm] at hfirst
    simpa using hfirst

end Reach

/-- The first name that exploring misses is the first unknown name. -/
theorem head?_missing_reach_eq_some_iff :
    (reach fragments set).missing.head? = some name ↔ IsFirstUnknown fragments set name := by
  obtain ⟨rest, hr⟩ := Reach.explore_keeps (P := Reach.Sweeping fragments set)
    (fun h hf => h.take hf) (fun h hv => h.skip hv)
    (fun h hn hf => h.miss (fun hv => hn (.inl hv)) hf) (Reach.sweeping_initial fragments set)
  refine ⟨fun h => hr.first name h, fun h => ?_⟩
  have hm : name ∈ (reach fragments set).missing :=
    (mem_missing_reach fragments set).mpr ⟨h.reachable, h.unknown⟩
  cases hfirst : (reach fragments set).missing.head? with
  | none =>
    rw [List.head?_eq_none_iff.mp hfirst] at hm
    cases hm
  | some name' => rw [(hr.first name' hfirst).unique h]

end Safelist
