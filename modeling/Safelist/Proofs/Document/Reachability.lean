import Mathlib.Data.List.Basic
import Safelist.Proofs.Document.Map

/-!
# What exploring finds

A name is reachable when it is used directly or by the fragment that a reachable
name means, which is the first of that name. Exploring keeps an invariant: what
has been found or missed is reachable, and whatever it uses has been found or
missed too or waits in the queue. Once the queue is empty, the names found are
the reachable names of fragments and the names missed are the others.
-/

namespace Safelist

/-- Where keys do not repeat, what is found by a key is the entry that has it. -/
theorem find?_key_eq_some_iff {α : Type} {key : α → String} {xs : List α}
    (hn : (xs.map key).Nodup) {k : String} {x : α} :
    xs.find? (fun y => key y == k) = some x ↔ x ∈ xs ∧ key x = k := by
  constructor
  · intro h
    exact ⟨List.mem_of_find?_eq_some h, by simpa using List.find?_some h⟩
  · rintro ⟨hx, rfl⟩
    induction xs with
    | nil => cases hx
    | cons y xs ih =>
      rw [List.map_cons, List.nodup_cons] at hn
      obtain rfl | hm := List.mem_cons.mp hx
      · simp
      · have hy : key y ≠ key x := fun h => hn.1 (h ▸ List.mem_map_of_mem hm)
        simp [hy, ih hn.2 hm]

/-- The fragment that a name means: the first of that name. -/
def fragmentNamed? (fragments : List Fragment) (name : String) : Option Fragment :=
  fragments.find? (·.name == name)

section Names

variable {fs : List Fragment} {f : Fragment} {name : String}

/-- Where names do not repeat, a name means the fragment that bears it. -/
theorem fragmentNamed?_eq_some_iff (hn : (fs.map Fragment.name).Nodup) :
    fragmentNamed? fs name = some f ↔ f ∈ fs ∧ f.name = name :=
  find?_key_eq_some_iff hn

theorem isSome_fragmentNamed?_iff :
    (fragmentNamed? fs name).isSome ↔ name ∈ fs.map Fragment.name := by
  simp [fragmentNamed?, List.find?_isSome]

theorem fragmentNamed?_eq_none_iff :
    fragmentNamed? fs name = none ↔ ∀ f ∈ fs, f.name ≠ name := by
  simp [fragmentNamed?]

end Names

/-- A selection set uses a name, directly or through fragments. -/
inductive Reachable (fragments : List Fragment) (set : List Selection) : String → Prop
  /-- What is used directly is reachable. -/
  | direct {name : String} (h : name ∈ Selection.setUses set) : Reachable fragments set name
  /-- What a reachable fragment uses is reachable. -/
  | through {name used : String} {f : Fragment} (h : Reachable fragments set name)
    (hf : fragmentNamed? fragments name = some f) (hu : used ∈ Selection.setUses f.selections) :
    Reachable fragments set used

/-- More is reachable where more is used and every fragment uses more. -/
theorem Reachable.mono {fragments fragments' : List Fragment} {set set' : List Selection}
    (hset : Selection.setUses set ⊆ Selection.setUses set')
    (hf : ∀ name f, fragmentNamed? fragments name = some f →
      ∃ f', fragmentNamed? fragments' name = some f' ∧
        Selection.setUses f.selections ⊆ Selection.setUses f'.selections)
    {name : String} (h : Reachable fragments set name) : Reachable fragments' set' name := by
  induction h with
  | direct h => exact .direct (hset h)
  | through _ hn hu ih =>
    obtain ⟨f', hf', hsub⟩ := hf _ _ hn
    exact ih.through hf' (hsub hu)

/-- What is reachable is reachable among other fragments too, where names mean the same. -/
theorem Reachable.congr {fs gs : List Fragment} {set : List Selection}
    (h : ∀ n, Reachable fs set n → fragmentNamed? fs n = fragmentNamed? gs n) {n : String} :
    Reachable fs set n ↔ Reachable gs set n := by
  constructor
  · intro hr
    induction hr with
    | direct hu => exact .direct hu
    | through hr hf hu ih => exact ih.through (h _ hr ▸ hf) hu
  · intro hr
    induction hr with
    | direct hu => exact .direct hu
    | through _ hf hu ih => exact ih.through ((h _ ih).symm ▸ hf) hu

@[simp] theorem mem_spreads {set : List Selection} {name : String} :
    name ∈ spreads set ↔ name ∈ Selection.setUses set := by
  simp [spreads]

@[simp] theorem Selection.uses_map (g : Value → Value) (h : Option String → Option String)
    (s : Selection) : (s.map g h).uses = s.uses := by
  induction s with
  | leaf f => rfl
  | nested f set ih =>
    simp only [Selection.map, Selection.uses, Selection.mapSet_eq_map,
      Selection.setUses_eq_flatMap, List.flatMap_map]
    exact List.flatMap_congr ih
  | spread s => rfl
  | inline head set ih =>
    simp only [Selection.map, Selection.uses, Selection.mapSet_eq_map,
      Selection.setUses_eq_flatMap, List.flatMap_map]
    exact List.flatMap_congr ih

/-- Changes of values and aliases change nothing about what is used. -/
@[simp] theorem Selection.setUses_map (g : Value → Value) (h : Option String → Option String)
    (set : List Selection) :
    Selection.setUses (set.map (Selection.map g h)) = Selection.setUses set := by
  simp [List.flatMap_map]

namespace Reach

section Steps

variable {pool : List Fragment} {found : Reach} {name : String} {queue : List String}

/-- A name that the pool knows is found. -/
theorem explore_found {f : Fragment} (hf : pool.find? (·.name == name) = some f) :
    explore pool found (name :: queue) =
      explore (pool.filter (·.name != name)) { found with fragments := found.fragments ++ [f] }
        (queue ++ spreads f.selections) := by
  rw [explore]
  split
  · rename_i f' hf'
    obtain rfl := Option.some.inj (hf'.symm.trans hf)
    rfl
  · rename_i hn
    rw [hf] at hn
    cases hn

/-- A name that has been found or missed is left out. -/
theorem explore_seen (hf : pool.find? (·.name == name) = none)
    (hs : name ∈ found.names ∨ name ∈ found.missing) :
    explore pool found (name :: queue) = explore pool found queue := by
  rw [explore]
  split
  · rename_i f hf'
    rw [hf] at hf'
    cases hf'
  · rw [if_pos (by simpa using hs)]

/-- Any other name is missed. -/
theorem explore_missed (hf : pool.find? (·.name == name) = none)
    (hs : ¬(name ∈ found.names ∨ name ∈ found.missing)) :
    explore pool found (name :: queue) =
      explore pool { found with missing := found.missing ++ [name] } queue := by
  rw [explore]
  split
  · rename_i f hf'
    rw [hf] at hf'
    cases hf'
  · rw [if_neg (by simpa using hs)]

end Steps

/-- What exploring finds with every fragment in it changed. -/
def map (m : Fragment → Fragment) (r : Reach) : Reach := { r with fragments := r.fragments.map m }

/-- Changes that keep names and uses can be made before exploring. -/
theorem explore_map {m : Fragment → Fragment} (hn : ∀ f, (m f).name = f.name)
    (hu : ∀ f, spreads (m f).selections = spreads f.selections) (pool : List Fragment)
    (found : Reach) (queue : List String) :
    explore (pool.map m) (found.map m) queue = (explore pool found queue).map m := by
  have hfind : ∀ (pool : List Fragment) (name : String),
      (pool.map m).find? (·.name == name) = (pool.find? (·.name == name)).map m := by
    intro pool name
    have hc : (fun f : Fragment => f.name == name) ∘ m = fun f => f.name == name :=
      funext fun f => congrArg (· == name) (hn f)
    rw [List.find?_map, hc]
  have hnames : ∀ found : Reach, (found.map m).names = found.names := by
    intro found
    simp [map, names, hn]
  fun_induction Reach.explore pool found queue with
  | case1 pool found => rw [explore]
  | case2 pool found name queue f hf ih =>
    simp only [List.unattach_filter, List.unattach_attach] at ih
    rw [explore_found (by rw [hfind, hf, Option.map_some]), hu, ← ih]
    simp [map, List.filter_map, Function.comp_def, hn]
  | case3 pool found name queue hf hseen ih =>
    rw [explore_seen (by rw [hfind, hf, Option.map_none]), ih]
    rw [hnames]
    simpa [map] using hseen
  | case4 pool found name queue hf hseen ih =>
    rw [explore_missed (by rw [hfind, hf, Option.map_none])]
    · exact ih
    · rw [hnames]
      simpa [map] using hseen

@[simp] theorem names_append (fs gs : List Fragment) (missing : List String) :
    names ⟨fs ++ gs, missing⟩ = names ⟨fs, missing⟩ ++ gs.map Fragment.name := by
  simp [names]

/-- A name has been found, has been missed, or waits in the queue. -/
def Accounted (found : Reach) (queue : List String) (name : String) : Prop :=
  name ∈ found.names ∨ name ∈ found.missing ∨ name ∈ queue

/-- Exploring is right so far. -/
structure Exploring (fragments : List Fragment) (set : List Selection) (pool : List Fragment)
    (found : Reach) (queue : List String) : Prop where
  /-- The pool holds the fragments whose names have not been found. -/
  pool_eq : pool = fragments.filter fun f => !found.names.contains f.name
  /-- A fragment found is the one its name means, and is reachable. -/
  meant : ∀ f ∈ found.fragments,
    fragmentNamed? fragments f.name = some f ∧ Reachable fragments set f.name
  /-- No name has been found twice. -/
  nodup : found.names.Nodup
  /-- A name missed means nothing and is reachable. -/
  missed : ∀ name ∈ found.missing,
    fragmentNamed? fragments name = none ∧ Reachable fragments set name
  /-- What waits is reachable. -/
  waiting : ∀ name ∈ queue, Reachable fragments set name
  /-- What is used directly is accounted for. -/
  direct : ∀ name ∈ Selection.setUses set, Accounted found queue name
  /-- What a fragment found uses is accounted for. -/
  through : ∀ f ∈ found.fragments, ∀ name ∈ Selection.setUses f.selections,
    Accounted found queue name

variable {fragments pool : List Fragment} {set : List Selection} {found : Reach}
  {queue : List String} {name : String}

theorem exploring_initial (fragments : List Fragment) (set : List Selection) :
    Exploring fragments set fragments ⟨[], []⟩ (spreads set) where
  pool_eq := (List.filter_eq_self.mpr (by simp [names])).symm
  meant := by simp
  nodup := by simp [names]
  missed := by simp
  waiting := fun name hn => .direct (mem_spreads.mp hn)
  direct := fun name hn => .inr (.inr (mem_spreads.mpr hn))
  through := by simp

/-- While a name has not been found, the pool knows what it means. -/
theorem Exploring.find?_pool (h : Exploring fragments set pool found queue)
    (hn : name ∉ found.names) : pool.find? (·.name == name) = fragmentNamed? fragments name := by
  rw [h.pool_eq, List.find?_filter, fragmentNamed?]
  congr 1
  funext f
  by_cases hf : f.name = name
  · simp [hf, hn]
  · simp [hf]

/-- Once a name has been found, the pool holds no fragment of that name. -/
theorem Exploring.find?_pool_of_mem (h : Exploring fragments set pool found queue)
    (hn : name ∈ found.names) : pool.find? (·.name == name) = none := by
  rw [h.pool_eq, List.find?_eq_none]
  intro f hf hname
  have hf' := (List.mem_filter.mp hf).2
  simp only [beq_iff_eq] at hname
  simp [hname, hn] at hf'

/-- A name in the pool is found. -/
theorem Exploring.take (h : Exploring fragments set pool found (name :: queue)) {f : Fragment}
    (hf : pool.find? (·.name == name) = some f) :
    Exploring fragments set (pool.filter (·.name != name))
      { found with fragments := found.fragments ++ [f] } (queue ++ spreads f.selections) := by
  have hfn : f.name = name := by simpa using List.find?_some hf
  have hn : name ∉ found.names := fun hn => by
    rw [h.find?_pool_of_mem hn] at hf
    cases hf
  have hmeant : fragmentNamed? fragments name = some f := (h.find?_pool hn).symm.trans hf
  have hr : Reachable fragments set name := h.waiting name List.mem_cons_self
  have hacc : ∀ {m : String}, Accounted found (name :: queue) m →
      Accounted { found with fragments := found.fragments ++ [f] }
        (queue ++ spreads f.selections) m := by
    intro m hm
    obtain hm | hm | hm := hm
    · exact .inl (by simpa using Or.inl hm)
    · exact .inr (.inl hm)
    · obtain rfl | hm := List.mem_cons.mp hm
      · exact .inl (by simp [hfn])
      · exact .inr (.inr (List.mem_append_left _ hm))
  refine ⟨?_, ?_, ?_, h.missed, ?_, fun m hm => hacc (h.direct m hm), ?_⟩
  · rw [h.pool_eq, List.filter_filter]
    congr 1
    funext g
    by_cases hg : g.name = name
    · simp [hg, hfn]
    · simp [hg, hfn]
  · intro g hg
    obtain hg | rfl := by simpa using hg
    · exact h.meant g hg
    · exact ⟨by rw [hfn, hmeant], hfn ▸ hr⟩
  · rw [names_append]
    refine List.nodup_append.mpr ⟨h.nodup, by simp, ?_⟩
    intro m hm m' hm' heq
    obtain rfl : m' = name := by simpa [hfn] using hm'
    exact hn (heq ▸ hm)
  · intro m hm
    obtain hm | hm := List.mem_append.mp hm
    · exact h.waiting m (List.mem_cons_of_mem _ hm)
    · exact hr.through hmeant (mem_spreads.mp hm)
  · intro g hg m hm
    obtain hg | rfl := by simpa using hg
    · exact hacc (h.through g hg m hm)
    · exact .inr (.inr (List.mem_append_right _ (mem_spreads.mpr hm)))

/-- A name that is accounted for otherwise can be left out of the queue. -/
theorem Exploring.skip (h : Exploring fragments set pool found (name :: queue))
    (hn : name ∈ found.names ∨ name ∈ found.missing) :
    Exploring fragments set pool found queue := by
  have hacc : ∀ {m : String}, Accounted found (name :: queue) m → Accounted found queue m := by
    intro m hm
    obtain hm | hm | hm := hm
    · exact .inl hm
    · exact .inr (.inl hm)
    · obtain rfl | hm := List.mem_cons.mp hm
      · exact hn.imp_right .inl
      · exact .inr (.inr hm)
  exact { h with
    waiting := fun m hm => h.waiting m (List.mem_cons_of_mem _ hm)
    direct := fun m hm => hacc (h.direct m hm)
    through := fun f hf m hm => hacc (h.through f hf m hm) }

/-- A name that means nothing is missed. -/
theorem Exploring.miss (h : Exploring fragments set pool found (name :: queue))
    (hn : name ∉ found.names) (hf : pool.find? (·.name == name) = none) :
    Exploring fragments set pool { found with missing := found.missing ++ [name] } queue := by
  have hacc : ∀ {m : String}, Accounted found (name :: queue) m →
      Accounted { found with missing := found.missing ++ [name] } queue m := by
    intro m hm
    obtain hm | hm | hm := hm
    · exact .inl hm
    · exact .inr (.inl (List.mem_append_left _ hm))
    · obtain rfl | hm := List.mem_cons.mp hm
      · exact .inr (.inl (by simp))
      · exact .inr (.inr hm)
  refine ⟨h.pool_eq, h.meant, h.nodup, ?_, fun m hm => h.waiting m (List.mem_cons_of_mem _ hm),
    fun m hm => hacc (h.direct m hm), fun f hf m hm => hacc (h.through f hf m hm)⟩
  intro m hm
  obtain hm | rfl := by simpa using hm
  · exact h.missed m hm
  · exact ⟨(h.find?_pool hn).symm.trans hf, h.waiting m List.mem_cons_self⟩

/-- What every look at a name keeps, exploring keeps until the queue is empty. -/
theorem explore_keeps {P : List Fragment → Reach → List String → Prop}
    (take : ∀ {pool found name queue f}, P pool found (name :: queue) →
      pool.find? (·.name == name) = some f →
      P (pool.filter (·.name != name)) { found with fragments := found.fragments ++ [f] }
        (queue ++ spreads f.selections))
    (skip : ∀ {pool found name queue}, P pool found (name :: queue) →
      name ∈ found.names ∨ name ∈ found.missing → P pool found queue)
    (miss : ∀ {pool found name queue}, P pool found (name :: queue) →
      ¬(name ∈ found.names ∨ name ∈ found.missing) → pool.find? (·.name == name) = none →
      P pool { found with missing := found.missing ++ [name] } queue)
    (h : P pool found queue) : ∃ rest, P rest (explore pool found queue) [] := by
  fun_induction Reach.explore pool found queue with
  | case1 pool found => exact ⟨pool, h⟩
  | case2 pool found name queue f hf ih =>
    simp only [List.unattach_filter, List.unattach_attach] at ih
    exact ih (take h hf)
  | case3 pool found name queue hf hseen ih => exact ih (skip h (by simpa using hseen))
  | case4 pool found name queue hf hseen ih => exact ih (miss h (by simpa using hseen) hf)

/-- Exploring stays right until the queue is empty. -/
theorem Exploring.explore (h : Exploring fragments set pool found queue) :
    ∃ rest, Exploring fragments set rest (explore pool found queue) [] :=
  explore_keeps (P := Exploring fragments set) (fun h hf => h.take hf) (fun h hs => h.skip hs)
    (fun h hn hf => h.miss (fun hm => hn (.inl hm)) hf) h

end Reach

/-- Changes of values and aliases can be made before exploring. -/
theorem reach_map (g : Value → Value) (h : Option String → Option String)
    (fragments : List Fragment) (set : List Selection) :
    reach (fragments.map (Fragment.map g h)) (set.map (Selection.map g h)) =
      (reach fragments set).map (Fragment.map g h) := by
  have hu : ∀ set : List Selection, spreads (set.map (Selection.map g h)) = spreads set := by
    intro set
    rw [spreads, spreads, Selection.setUses_map]
  rw [reach, hu]
  exact Reach.explore_map (m := Fragment.map g h) (fun _ => rfl) (fun f => hu f.selections)
    fragments ⟨[], []⟩ _

variable (fragments : List Fragment) (set : List Selection)

theorem exploring_reach :
    ∃ rest, Reach.Exploring fragments set rest (reach fragments set) [] :=
  (Reach.exploring_initial fragments set).explore

/-- Every reachable name is found or missed. -/
theorem mem_reach_of_reachable {name : String} (h : Reachable fragments set name) :
    name ∈ (reach fragments set).names ∨ name ∈ (reach fragments set).missing := by
  obtain ⟨rest, hr⟩ := exploring_reach fragments set
  induction h with
  | direct h => simpa [Reach.Accounted] using hr.direct _ h
  | @through name used f _ hf hu ih =>
    obtain hn | hn := ih
    · obtain ⟨g, hg, rfl⟩ := List.mem_map.mp hn
      obtain rfl := Option.some.inj ((hr.meant g hg).1.symm.trans hf)
      simpa [Reach.Accounted] using hr.through g hg _ hu
    · rw [(hr.missed _ hn).1] at hf
      cases hf

/-- The names found are the reachable ones that mean a fragment. -/
theorem mem_names_reach {name : String} :
    name ∈ (reach fragments set).names ↔
      Reachable fragments set name ∧ (fragmentNamed? fragments name).isSome := by
  obtain ⟨rest, hr⟩ := exploring_reach fragments set
  constructor
  · intro hn
    obtain ⟨f, hf, rfl⟩ := List.mem_map.mp hn
    obtain ⟨hm, hreach⟩ := hr.meant f hf
    exact ⟨hreach, by simp [hm]⟩
  · rintro ⟨hreach, hm⟩
    obtain hn | hn := mem_reach_of_reachable fragments set hreach
    · exact hn
    · rw [(hr.missed _ hn).1] at hm
      cases hm

/-- The names missed are the reachable ones that mean nothing. -/
theorem mem_missing_reach {name : String} :
    name ∈ (reach fragments set).missing ↔
      Reachable fragments set name ∧ fragmentNamed? fragments name = none := by
  obtain ⟨rest, hr⟩ := exploring_reach fragments set
  constructor
  · intro hn
    exact (hr.missed _ hn).symm
  · rintro ⟨hreach, hm⟩
    obtain hn | hn := mem_reach_of_reachable fragments set hreach
    · obtain ⟨f, hf, rfl⟩ := List.mem_map.mp hn
      rw [(hr.meant f hf).1] at hm
      cases hm
    · exact hn

end Safelist
