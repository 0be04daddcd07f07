import Mathlib.Order.Lattice.Nat
import Safelist.Proofs.Document.Addresses

/-!
# Exploring goes breadth first

A chain of uses leads from a selection set to a name, through one fragment after
another. Exploring goes by the length of the shortest chain: as long as names of
one length wait in the queue, what they use joins its end. So it finds and misses
the names that chains lead to, each once, and none before a nearer one.
-/

namespace Safelist

/-- A chain of this many uses leads from a selection set to a name: the first stands in the set,
and each of the others in the fragment that the name before it means. -/
inductive Chain (fragments : List Fragment) (set : List Selection) : Nat → String → Prop
  /-- A use in the set is a chain. -/
  | direct {address : List Nat} {use : Spread} (h : UseAt set address use) :
    Chain fragments set 1 use.name
  /-- A chain goes on with a use in the fragment it leads to. -/
  | through {n : Nat} {name : String} {f : Fragment} {address : List Nat} {use : Spread}
    (h : Chain fragments set n name) (hf : fragmentNamed? fragments name = some f)
    (hu : UseAt f.selections address use) : Chain fragments set (n + 1) use.name

variable {fragments pool : List Fragment} {set : List Selection} {name : String}

/-- A name is reachable when a chain leads to it. -/
theorem reachable_iff_exists_chain :
    Reachable fragments set name ↔ ∃ n, Chain fragments set n name := by
  constructor
  · intro h
    induction h with
    | direct h =>
      obtain ⟨address, use, hat, rfl⟩ := mem_setUses_iff.mp h
      exact ⟨1, .direct hat⟩
    | through _ hf hu ih =>
      obtain ⟨n, hn⟩ := ih
      obtain ⟨address, use, hat, rfl⟩ := mem_setUses_iff.mp hu
      exact ⟨n + 1, hn.through hf hat⟩
  · rintro ⟨n, h⟩
    induction h with
    | direct h => exact .direct (mem_setUses_iff.mpr ⟨_, _, h, rfl⟩)
    | through _ hf hu ih => exact ih.through hf (mem_setUses_iff.mpr ⟨_, _, hu, rfl⟩)

theorem Chain.pos {n : Nat} (h : Chain fragments set n name) : 0 < n := by
  cases h <;> exact Nat.succ_pos _

/-- The length of the shortest chain to a name. -/
noncomputable def distance (fragments : List Fragment) (set : List Selection) (name : String) :
    Nat :=
  sInf {n | Chain fragments set n name}

/-- To every chain to the second name there is one to the first that is not longer. -/
def NoFarther (fragments : List Fragment) (set : List Selection) (a b : String) : Prop :=
  ∀ n, Chain fragments set n b → ∃ m ≤ n, Chain fragments set m a

theorem NoFarther.distance_le {a b : String} (h : NoFarther fragments set a b)
    (hb : Reachable fragments set b) : distance fragments set a ≤ distance fragments set b := by
  obtain ⟨m, hm, ha⟩ := h _ (Nat.sInf_mem (reachable_iff_exists_chain.mp hb))
  exact (Nat.sInf_le ha).trans hm

namespace Reach

variable {found : Reach} {queue now next : List String} {level : Nat}

/-- A name has been found or missed. -/
def Visited (found : Reach) (name : String) : Prop := name ∈ found.names ∨ name ∈ found.missing

/-- Exploring goes by levels: names of one level wait first, and behind them names of the next. -/
structure Leveled (fragments : List Fragment) (set : List Selection) (found : Reach)
    (level : Nat) (now next : List String) : Prop where
  /-- Chains of this level lead to the names that wait first. -/
  waiting : ∀ name ∈ now, Chain fragments set level name
  /-- Chains of the next level lead to the names behind them. -/
  following : ∀ name ∈ next, Chain fragments set (level + 1) name
  /-- What a shorter chain leads to has been visited. -/
  nearer : ∀ n name, Chain fragments set n name → n < level → found.Visited name
  /-- What a chain of this level leads to has been visited or waits first. -/
  reached : ∀ name, Chain fragments set level name → found.Visited name ∨ name ∈ now
  /-- A chain that is not longer leads to what has been visited. -/
  within : ∀ name, found.Visited name → ∃ n ≤ level, Chain fragments set n name
  /-- No name has been found before a nearer one. -/
  inOrder : found.names.Pairwise (NoFarther fragments set)
  /-- No name has been missed before a nearer one, or twice. -/
  missedInOrder : found.missing.Pairwise fun a b => a ≠ b ∧ NoFarther fragments set a b

theorem leveled_initial (fragments : List Fragment) (set : List Selection) :
    Leveled fragments set ⟨[], []⟩ 1 (spreads set) [] where
  waiting name hn := by
    obtain ⟨address, use, hat, rfl⟩ := mem_setUses_iff.mp (mem_spreads.mp hn)
    exact .direct hat
  following := by simp
  nearer n name h hn := absurd h.pos (by omega)
  reached name h := by
    cases h with
    | direct hat => exact .inr (mem_spreads.mpr (mem_setUses_iff.mpr ⟨_, _, hat, rfl⟩))
    | through h => exact absurd h.pos (by omega)
  within name hn := by simp [Visited, names] at hn
  inOrder := .nil
  missedInOrder := .nil

/-- Once no name of a level waits, the next level begins. -/
theorem Leveled.begin (h : Leveled fragments set found level [] next)
    (he : Exploring fragments set pool found next) :
    Leveled fragments set found (level + 1) next [] where
  waiting := h.following
  following := by simp
  nearer n name hn hlt := by
    obtain hlt | rfl := Nat.lt_succ_iff_lt_or_eq.mp hlt
    · exact h.nearer n name hn hlt
    · simpa using h.reached name hn
  reached name hn := by
    cases hn with
    | direct hat =>
      have ha := he.direct _ (mem_setUses_iff.mpr ⟨_, _, hat, rfl⟩)
      exact or_assoc.mpr ha
    | @through _ parent f _ use hp hf hu =>
      obtain hv | hv := (h.reached parent hp).resolve_right List.not_mem_nil
      · obtain ⟨g, hg, rfl⟩ := List.mem_map.mp hv
        obtain rfl := Option.some.inj ((he.meant g hg).1.symm.trans hf)
        exact or_assoc.mpr (he.through g hg _ (mem_setUses_iff.mpr ⟨_, _, hu, rfl⟩))
      · rw [(he.missed parent hv).1] at hf
        cases hf
  within name hv := by
    obtain ⟨n, hn, hc⟩ := h.within name hv
    exact ⟨n, hn.trans (Nat.le_succ _), hc⟩
  inOrder := h.inOrder
  missedInOrder := h.missedInOrder

/-- No name that has been visited is farther than one of this level that has not. -/
theorem Leveled.noFarther (h : Leveled fragments set found level now next)
    (hnew : ¬found.Visited name) {a : String} (ha : found.Visited a) :
    NoFarther fragments set a name := by
  intro n hn
  obtain ⟨m, hm, hc⟩ := h.within a ha
  refine ⟨m, hm.trans (Nat.le_of_not_lt fun hlt => hnew ?_), hc⟩
  exact h.nearer n name hn hlt

theorem Leveled.take (h : Leveled fragments set found level (name :: now) next) {f : Fragment}
    (hf : fragmentNamed? fragments name = some f) (hname : f.name = name)
    (hnew : ¬found.Visited name) :
    Leveled fragments set { found with fragments := found.fragments ++ [f] } level now
      (next ++ spreads f.selections) := by
  have hv : ∀ a, Visited { found with fragments := found.fragments ++ [f] } a ↔
      found.Visited a ∨ a = name := by
    intro a
    simp [Visited, hname, or_right_comm]
  refine ⟨fun a ha => h.waiting a (List.mem_cons_of_mem _ ha), ?_, ?_, ?_, ?_, ?_, h.missedInOrder⟩
  · intro a ha
    obtain ha | ha := List.mem_append.mp ha
    · exact h.following a ha
    · obtain ⟨address, use, hat, rfl⟩ := mem_setUses_iff.mp (mem_spreads.mp ha)
      exact (h.waiting name List.mem_cons_self).through hf hat
  · exact fun n a ha hn => (hv a).mpr (.inl (h.nearer n a ha hn))
  · intro a ha
    rw [hv]
    obtain ha | ha := h.reached a ha
    · exact .inl (.inl ha)
    · obtain rfl | ha := List.mem_cons.mp ha
      · exact .inl (.inr rfl)
      · exact .inr ha
  · intro a ha
    obtain ha | rfl := (hv a).mp ha
    · exact h.within a ha
    · exact ⟨level, le_rfl, h.waiting a List.mem_cons_self⟩
  · rw [names_append]
    refine List.pairwise_append.mpr ⟨h.inOrder, List.pairwise_singleton _ _, fun a ha b hb => ?_⟩
    obtain rfl : b = name := by simpa [hname] using hb
    exact h.noFarther hnew (.inl ha)

theorem Leveled.skip (h : Leveled fragments set found level (name :: now) next)
    (hv : found.Visited name) : Leveled fragments set found level now next :=
  { h with
    waiting := fun a ha => h.waiting a (List.mem_cons_of_mem _ ha)
    reached := fun a ha => by
      obtain ha | ha := h.reached a ha
      · exact .inl ha
      · obtain rfl | ha := List.mem_cons.mp ha
        · exact .inl hv
        · exact .inr ha }

theorem Leveled.miss (h : Leveled fragments set found level (name :: now) next)
    (hnew : ¬found.Visited name) :
    Leveled fragments set { found with missing := found.missing ++ [name] } level now next := by
  have hv : ∀ a, Visited { found with missing := found.missing ++ [name] } a ↔
      found.Visited a ∨ a = name := by
    intro a
    simp [Visited, names, or_assoc]
  refine ⟨fun a ha => h.waiting a (List.mem_cons_of_mem _ ha), h.following, ?_, ?_, ?_, h.inOrder,
    ?_⟩
  · exact fun n a ha hn => (hv a).mpr (.inl (h.nearer n a ha hn))
  · intro a ha
    rw [hv]
    obtain ha | ha := h.reached a ha
    · exact .inl (.inl ha)
    · obtain rfl | ha := List.mem_cons.mp ha
      · exact .inl (.inr rfl)
      · exact .inr ha
  · intro a ha
    obtain ha | rfl := (hv a).mp ha
    · exact h.within a ha
    · exact ⟨level, le_rfl, h.waiting a List.mem_cons_self⟩
  · refine List.pairwise_append.mpr
      ⟨h.missedInOrder, List.pairwise_singleton _ _, fun a ha b hb => ?_⟩
    obtain rfl := List.mem_singleton.mp hb
    exact ⟨fun he => hnew (.inr (he ▸ ha)), h.noFarther hnew (.inr ha)⟩

/-- Exploring is right so far and goes by levels. -/
structure Advancing (fragments : List Fragment) (set : List Selection) (pool : List Fragment)
    (found : Reach) (queue : List String) : Prop where
  /-- Exploring is right so far. -/
  exploring : Exploring fragments set pool found queue
  /-- The queue holds names of one level, and names of the next behind them. -/
  leveled : ∃ level now next, queue = now ++ next ∧ Leveled fragments set found level now next

/-- The name at the head of the queue may be taken for one of the level that waits first. -/
theorem Advancing.exists_leveled (h : Advancing fragments set pool found (name :: queue)) :
    ∃ level now next, queue = now ++ next ∧
      Leveled fragments set found level (name :: now) next := by
  obtain ⟨level, now, next, hq, hl⟩ := h.leveled
  cases now with
  | nil =>
    obtain rfl : name :: queue = next := hq
    exact ⟨level + 1, queue, [], (List.append_nil queue).symm, hl.begin h.exploring⟩
  | cons first now =>
    obtain ⟨rfl, rfl⟩ := List.cons.inj hq
    exact ⟨level, now, next, rfl, hl⟩

theorem Advancing.take (h : Advancing fragments set pool found (name :: queue)) {f : Fragment}
    (hf : pool.find? (·.name == name) = some f) :
    Advancing fragments set (pool.filter (·.name != name))
      { found with fragments := found.fragments ++ [f] } (queue ++ spreads f.selections) := by
  refine ⟨h.exploring.take hf, ?_⟩
  obtain ⟨level, now, next, rfl, hl⟩ := h.exists_leveled
  have hn : name ∉ found.names := fun hn => by
    rw [h.exploring.find?_pool_of_mem hn] at hf
    cases hf
  have hmeant : fragmentNamed? fragments name = some f := by
    rw [← h.exploring.find?_pool hn, hf]
  have hnew : ¬found.Visited name := by
    rintro (hv | hv)
    · exact hn hv
    · rw [(h.exploring.missed name hv).1] at hmeant
      cases hmeant
  exact ⟨level, now, next ++ spreads f.selections, List.append_assoc _ _ _,
    hl.take hmeant (by simpa using List.find?_some hf) hnew⟩

theorem Advancing.skip (h : Advancing fragments set pool found (name :: queue))
    (hv : found.Visited name) : Advancing fragments set pool found queue := by
  refine ⟨h.exploring.skip hv, ?_⟩
  obtain ⟨level, now, next, hq, hl⟩ := h.exists_leveled
  exact ⟨level, now, next, hq, hl.skip hv⟩

theorem Advancing.miss (h : Advancing fragments set pool found (name :: queue))
    (hnew : ¬found.Visited name) (hf : pool.find? (·.name == name) = none) :
    Advancing fragments set pool { found with missing := found.missing ++ [name] } queue := by
  refine ⟨h.exploring.miss (fun hn => hnew (.inl hn)) hf, ?_⟩
  obtain ⟨level, now, next, hq, hl⟩ := h.exists_leveled
  exact ⟨level, now, next, hq, hl.miss hnew⟩

end Reach

/-- What exploring a selection set comes to, level by level. -/
theorem advancing_reach (fragments : List Fragment) (set : List Selection) :
    ∃ rest, Reach.Advancing fragments set rest (reach fragments set) [] :=
  Reach.explore_keeps (P := Reach.Advancing fragments set) (fun h hf => h.take hf)
    (fun h hv => h.skip hv) (fun h hn hf => h.miss hn hf)
    ⟨Reach.exploring_initial fragments set, 1, spreads set, [], (List.append_nil _).symm,
      Reach.leveled_initial fragments set⟩

/-- What a search from a selection set finds is what chains lead to, nearest first. -/
structure IsBreadthFirst (fragments : List Fragment) (set : List Selection) (r : Reach) :
    Prop where
  /-- The fragments found are those that the reachable names mean. -/
  mem_fragments : ∀ f, f ∈ r.fragments ↔
    (∃ n, Chain fragments set n f.name) ∧ fragmentNamed? fragments f.name = some f
  /-- No name is found twice. -/
  nodup_names : r.names.Nodup
  /-- No fragment is found before a nearer one. -/
  fragments_by_distance : r.fragments.Pairwise fun f g =>
    distance fragments set f.name ≤ distance fragments set g.name
  /-- The names missed are the reachable ones that no fragment has. -/
  mem_missing : ∀ name, name ∈ r.missing ↔
    (∃ n, Chain fragments set n name) ∧ ∀ f ∈ fragments, f.name ≠ name
  /-- No name is missed twice. -/
  nodup_missing : r.missing.Nodup
  /-- No name is missed before a nearer one. -/
  missing_by_distance : r.missing.Pairwise fun a b =>
    distance fragments set a ≤ distance fragments set b

/-- Exploring finds and misses what chains of uses lead to, nearest first. -/
theorem isBreadthFirst_reach (fragments : List Fragment) (set : List Selection) :
    IsBreadthFirst fragments set (reach fragments set) := by
  obtain ⟨rest, he, level, now, next, -, hl⟩ := advancing_reach fragments set
  refine ⟨fun f => ?_, he.nodup, ?_, fun name => ?_, ?_, ?_⟩
  · rw [← reachable_iff_exists_chain]
    refine ⟨fun hf => (he.meant f hf).symm, fun ⟨hr, hf⟩ => ?_⟩
    have hn := (mem_names_reach fragments set).mpr ⟨hr, by rw [hf]; rfl⟩
    obtain ⟨g, hg, hname⟩ := List.mem_map.mp hn
    have hgf := (he.meant g hg).1
    rw [hname, hf] at hgf
    obtain rfl := Option.some.inj hgf
    exact hg
  · have hp := List.pairwise_map.mp hl.inOrder
    exact hp.imp_of_mem fun _ hg hfg => hfg.distance_le (he.meant _ hg).2
  · rw [mem_missing_reach, reachable_iff_exists_chain, fragmentNamed?_eq_none_iff]
  · exact hl.missedInOrder.imp And.left
  · exact hl.missedInOrder.imp_of_mem fun _ hb hab => hab.2.distance_le (he.missed _ hb).2

/-- Exploring finds exactly what chains of uses lead to, each fragment and each missing name once
and nearest first, whatever cycles the fragments form. The names that a selection set uses itself
are listed once each, in the order of their first uses. -/
theorem reach_nearest_first (fragments : List Fragment) (set : List Selection) :
    IsBreadthFirst fragments set (reach fragments set) ∧
      (∀ name, name ∈ spreads set ↔ ∃ address use, UseAt set address use ∧ use.name = name) ∧
      (spreads set).Pairwise fun a b => a ≠ b ∧ FirstUsedBefore set a b := by
  refine ⟨isBreadthFirst_reach fragments set, fun name => ?_, pairwise_spreads set⟩
  rw [mem_spreads, mem_setUses_iff]

end Safelist
