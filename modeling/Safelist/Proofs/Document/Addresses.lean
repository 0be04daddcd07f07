import Mathlib.Data.List.Lex
import Safelist.Proofs.Document.Registration

/-!
# Where things stand in a selection set

An address counts selections on the way down from a selection set: which of its
selections to enter, which of those inside, and so on. Addresses are ordered like
words in a dictionary, and this is the order in which a document is read. So the
first empty selection set is the one with the least address, and uses of fragments
come one before the other as their addresses do.
-/

namespace Safelist

/-- The selection set that a selection opens and how the selection is named on the way into it,
if it opens one. -/
def Selection.opening? : Selection → Option (String × List Selection)
  | .leaf _ => none
  | .nested f set => some (f.responseKey, set)
  | .spread _ => none
  | .inline head set => some (head.label, set)

/-- A statement holds of every selection set if it passes from the sets that the selections of a
set open to the set. -/
@[elab_as_elim]
theorem Selection.set_induction {motive : List Selection → Prop}
    (step : ∀ set : List Selection,
      (∀ s ∈ set, ∀ label inner, s.opening? = some (label, inner) → motive inner) → motive set)
    (set : List Selection) : motive set := by
  have hopen : ∀ s : Selection, ∀ label inner, s.opening? = some (label, inner) →
      motive inner := by
    intro s
    induction s with
    | leaf f =>
      intro label inner h
      cases h
    | nested f set ih =>
      intro label inner h
      cases h
      exact step set ih
    | spread use =>
      intro label inner h
      cases h
    | inline head set ih =>
      intro label inner h
      cases h
      exact step set ih
  exact step set fun s _ => hopen s

/-- An address comes before another, as words do in a dictionary. -/
def Before (address address' : List Nat) : Prop := List.Lex (· < ·) address address'

/-- A selection set stands at an address in another, which may be itself, and is reached by a
path of names. -/
inductive SetAt : List Selection → List Nat → List String → List Selection → Prop
  /-- A set stands in itself. -/
  | top (set : List Selection) : SetAt set [] [] set
  /-- What stands in a set that a selection opens stands below this selection. -/
  | inside {set inner target : List Selection} {i : Nat} {s : Selection} {label : String}
    {address : List Nat} {path : List String} (hs : set[i]? = some s)
    (ho : s.opening? = some (label, inner)) (h : SetAt inner address path target) :
    SetAt set (i :: address) (label :: path) target

/-- A use of a fragment stands at an address in a selection set. -/
inductive UseAt : List Selection → List Nat → Spread → Prop
  /-- A use is one of the selections. -/
  | here {set : List Selection} {i : Nat} {use : Spread} (h : set[i]? = some (.spread use)) :
    UseAt set [i] use
  /-- What stands in a set that a selection opens stands below this selection. -/
  | inside {set inner : List Selection} {i : Nat} {s : Selection} {label : String}
    {address : List Nat} {use : Spread} (hs : set[i]? = some s)
    (ho : s.opening? = some (label, inner)) (h : UseAt inner address use) :
    UseAt set (i :: address) use

variable {set : List Selection} {address address' : List Nat} {path : List String}

/-- Something holds of every selection at any depth of a selection set. -/
def Everywhere (P : Selection → Prop) (set : List Selection) : Prop :=
  ∀ address path inner, SetAt set address path inner → ∀ s ∈ inner, P s

/-- It holds of the selections of the set and everywhere in the sets that they open. -/
theorem everywhere_iff {P : Selection → Prop} {set : List Selection} : Everywhere P set ↔
    ∀ s ∈ set, P s ∧ ∀ label inner, s.opening? = some (label, inner) → Everywhere P inner := by
  constructor
  · intro h s hs
    obtain ⟨i, hi⟩ := List.mem_iff_getElem?.mp hs
    exact ⟨h [] [] set (.top set) s hs, fun label inner ho address path target ht =>
      h (i :: address) (label :: path) target (.inside hi ho ht)⟩
  · intro h address path target ht
    cases ht with
    | top => exact fun s hs => (h s hs).1
    | inside hs ho ht => exact (h _ (List.mem_of_getElem? hs)).2 _ _ ho _ _ _ ht

section Everywhere

variable {P : Selection → Prop} {set inner : List Selection}

theorem everywhere_nil : Everywhere P [] := everywhere_iff.mpr (by simp)

theorem everywhere_cons_iff {s : Selection} : Everywhere P (s :: set) ↔
    (P s ∧ ∀ label inner, s.opening? = some (label, inner) → Everywhere P inner) ∧
      Everywhere P set := by
  rw [everywhere_iff, List.forall_mem_cons, ← everywhere_iff]

@[simp] theorem everywhere_leaf_cons {f : Field} :
    Everywhere P (.leaf f :: set) ↔ P (.leaf f) ∧ Everywhere P set := by
  simp [everywhere_cons_iff, Selection.opening?]

@[simp] theorem everywhere_nested_cons {f : Field} : Everywhere P (.nested f inner :: set) ↔
    (P (.nested f inner) ∧ Everywhere P inner) ∧ Everywhere P set := by
  simp [everywhere_cons_iff, Selection.opening?]

@[simp] theorem everywhere_spread_cons {use : Spread} :
    Everywhere P (.spread use :: set) ↔ P (.spread use) ∧ Everywhere P set := by
  simp [everywhere_cons_iff, Selection.opening?]

@[simp] theorem everywhere_inline_cons {head : InlineHead} :
    Everywhere P (.inline head inner :: set) ↔
      (P (.inline head inner) ∧ Everywhere P inner) ∧ Everywhere P set := by
  simp [everywhere_cons_iff, Selection.opening?]

end Everywhere

section Order

variable {i j : Nat}

theorem not_before_nil : ¬Before address [] := List.not_lex_nil

theorem before_cons_iff :
    Before (i :: address) (j :: address') ↔ i < j ∨ i = j ∧ Before address address' :=
  List.cons_lex_cons_iff

/-- Of two addresses one comes before the other, if they differ. -/
theorem eq_of_not_before (h : ¬Before address address') (h' : ¬Before address' address) :
    address = address' := by
  induction address generalizing address' with
  | nil =>
    cases address' with
    | nil => rfl
    | cons j address' => exact absurd .nil h
  | cons i address ih =>
    cases address' with
    | nil => exact absurd .nil h'
    | cons j address' =>
      rw [before_cons_iff] at h h'
      obtain rfl : i = j := by omega
      rw [ih (fun hb => h (.inr ⟨rfl, hb⟩)) fun hb => h' (.inr ⟨rfl, hb⟩)]

end Order

section Empty

theorem Selection.emptyPath?_eq (s : Selection) :
    s.emptyPath? = s.opening?.bind fun o => (Selection.setEmptyPath? o.2).map (o.1 :: ·) := by
  cases s <;> rfl

theorem Selection.emptyPath?_of_opening {s : Selection} {label : String} {inner : List Selection}
    (h : s.opening? = some (label, inner)) :
    s.emptyPath? = (Selection.setEmptyPath? inner).map (label :: ·) := by
  rw [Selection.emptyPath?_eq, h, Option.bind_some]

/-- An empty selection set stands at an address, no other one stands before it, and this path
leads to it. -/
def IsFirstEmpty (set : List Selection) (path : List String) : Prop :=
  ∃ address, SetAt set address path [] ∧
    ∀ address' path', SetAt set address' path' [] → ¬Before address' address

/-- What stands at an address is reached by one path. -/
theorem SetAt.path_eq {target target' : List Selection} {path' : List String}
    (h : SetAt set address path target) (h' : SetAt set address path' target') : path = path' := by
  induction h generalizing path' with
  | top set =>
    cases h' with
    | top => rfl
  | inside hs ho _ ih =>
    cases h' with
    | inside hs' ho' h' =>
      obtain rfl := Option.some.inj (hs.symm.trans hs')
      obtain ⟨rfl, rfl⟩ := Prod.mk.inj (Option.some.inj (ho.symm.trans ho'))
      rw [ih h']

/-- Only one path leads to the first empty selection set. -/
theorem IsFirstEmpty.path_eq {path' : List String} (h : IsFirstEmpty set path)
    (h' : IsFirstEmpty set path') : path = path' := by
  obtain ⟨address, hat, hleast⟩ := h
  obtain ⟨address', hat', hleast'⟩ := h'
  obtain rfl : address = address' := eq_of_not_before (hleast' _ _ hat) (hleast _ _ hat')
  exact hat.path_eq hat'

/-- Where no way to an empty set is found, there is none. -/
theorem SetAt.ne_nil_of_setEmptyPath?_eq_none {target : List Selection}
    (h : SetAt set address path target) (hn : Selection.setEmptyPath? set = none) :
    target ≠ [] := by
  induction h with
  | top set => exact ((Selection.setEmptyPath?_eq_none_iff set).mp hn).ne_nil
  | @inside set inner target i s label address path hs ho _ ih =>
    refine ih ?_
    have hfilled := (Selection.setEmptyPath?_eq_none_iff set).mp hn
    have hs' := s.emptyPath?_eq_none_iff.mpr (hfilled.filled s (List.mem_of_getElem? hs))
    rwa [Selection.emptyPath?_of_opening ho, Option.map_eq_none_iff] at hs'

/-- The way that is found leads to the first empty set. -/
theorem isFirstEmpty_of_setEmptyPath? (set : List Selection) :
    ∀ path, Selection.setEmptyPath? set = some path → IsFirstEmpty set path := by
  induction set using Selection.set_induction with
  | step set ih =>
    intro path h
    rw [Selection.setEmptyPath?, Selection.firstEmptyPath?_eq_findSome?] at h
    split at h
    · rename_i hempty
      obtain rfl := Option.some.inj h
      rw [List.isEmpty_iff.mp hempty]
      exact ⟨[], .top [], fun _ _ _ => not_before_nil⟩
    · rename_i hne
      obtain ⟨before, s, after, hset, hs, hbefore⟩ := List.findSome?_eq_some_iff.mp h
      rw [Selection.emptyPath?_eq, Option.bind_eq_some_iff] at hs
      obtain ⟨⟨label, inner⟩, ho, hs⟩ := hs
      obtain ⟨path, hp, rfl⟩ := Option.map_eq_some_iff.mp hs
      obtain ⟨address, hat, hleast⟩ := ih s (by simp [hset]) label inner ho path hp
      have hget : set[before.length]? = some s := by simp [hset]
      refine ⟨before.length :: address, .inside hget ho hat, ?_⟩
      intro address' path' hat'
      cases hat' with
      | top => simp at hne
      | @inside _ inner' _ i t label' address' path' ht ho' hat' =>
        obtain hlt | rfl | hgt := Nat.lt_trichotomy i before.length
        · -- No selection before this one holds an empty set.
          have hm : t ∈ before := by
            rw [hset, List.getElem?_append_left hlt] at ht
            exact List.mem_of_getElem? ht
          have hn := hbefore t hm
          rw [Selection.emptyPath?_of_opening ho', Option.map_eq_none_iff] at hn
          exact absurd rfl (hat'.ne_nil_of_setEmptyPath?_eq_none hn)
        · obtain rfl := Option.some.inj (hget.symm.trans ht)
          obtain ⟨rfl, rfl⟩ := Prod.mk.inj (Option.some.inj (ho.symm.trans ho'))
          exact fun hb => hleast _ _ hat' (by simpa [before_cons_iff] using hb)
        · exact fun hb => by rw [before_cons_iff] at hb; omega

/-- The way to the first empty selection set is found. -/
theorem setEmptyPath?_eq_some_iff :
    Selection.setEmptyPath? set = some path ↔ IsFirstEmpty set path := by
  refine ⟨isFirstEmpty_of_setEmptyPath? set path, fun h => ?_⟩
  cases hp : Selection.setEmptyPath? set with
  | none =>
    obtain ⟨address, hat, -⟩ := h
    exact absurd rfl (hat.ne_nil_of_setEmptyPath?_eq_none hp)
  | some path' => rw [(isFirstEmpty_of_setEmptyPath? set path' hp).path_eq h]

/-- A selection set is filled when no set that stands in it is empty. -/
theorem filledSet_iff :
    FilledSet set ↔ ∀ address path target, SetAt set address path target → target ≠ [] := by
  rw [← Selection.setEmptyPath?_eq_none_iff]
  refine ⟨fun h _ _ _ hat => hat.ne_nil_of_setEmptyPath?_eq_none h, fun h => ?_⟩
  cases hp : Selection.setEmptyPath? set with
  | none => rfl
  | some path =>
    obtain ⟨address, hat, -⟩ := isFirstEmpty_of_setEmptyPath? set path hp
    exact absurd rfl (h _ _ _ hat)

end Empty

section Uses

variable {use : Spread} {name : String}

theorem Selection.mem_uses_iff {s : Selection} :
    name ∈ s.uses ↔ (∃ use, s = .spread use ∧ use.name = name) ∨
      ∃ label inner, s.opening? = some (label, inner) ∧ name ∈ Selection.setUses inner := by
  cases s <;> simp [Selection.uses, Selection.opening?, eq_comm]

/-- A name is used in a selection set when a use of it stands at some address. -/
theorem mem_setUses_iff :
    name ∈ Selection.setUses set ↔ ∃ address use, UseAt set address use ∧ use.name = name := by
  constructor
  · induction set using Selection.set_induction with
    | step set ih =>
      intro h
      rw [Selection.setUses_eq_flatMap, List.mem_flatMap] at h
      obtain ⟨s, hm, hs⟩ := h
      obtain ⟨i, hi⟩ := List.mem_iff_getElem?.mp hm
      obtain ⟨use, rfl, hn⟩ | ⟨label, inner, ho, hn⟩ := Selection.mem_uses_iff.mp hs
      · exact ⟨[i], use, .here hi, hn⟩
      · obtain ⟨address, use, hat, hu⟩ := ih s hm label inner ho hn
        exact ⟨i :: address, use, .inside hi ho hat, hu⟩
  · rintro ⟨address, use, hat, rfl⟩
    induction hat with
    | here h =>
      rw [Selection.setUses_eq_flatMap, List.mem_flatMap]
      exact ⟨_, List.mem_of_getElem? h, Selection.mem_uses_iff.mpr (.inl ⟨_, rfl, rfl⟩)⟩
    | inside hs ho _ ih =>
      rw [Selection.setUses_eq_flatMap, List.mem_flatMap]
      exact ⟨_, List.mem_of_getElem? hs, Selection.mem_uses_iff.mpr (.inr ⟨_, _, ho, ih⟩)⟩

/-- A use in a single selection is the selection or stands in the set that it opens. -/
theorem useAt_singleton_iff {s : Selection} :
    UseAt [s] address use ↔ (s = .spread use ∧ address = [0]) ∨
      ∃ label inner below, s.opening? = some (label, inner) ∧ UseAt inner below use ∧
        address = 0 :: below := by
  constructor
  · intro h
    cases h with
    | @here _ i _ h =>
      obtain ⟨rfl, rfl⟩ : i = 0 ∧ s = .spread use := by simpa [List.getElem?_singleton] using h
      exact .inl ⟨rfl, rfl⟩
    | @inside _ inner i t label below _ hs ho h =>
      obtain ⟨rfl, rfl⟩ : i = 0 ∧ s = t := by simpa [List.getElem?_singleton] using hs
      exact .inr ⟨label, inner, below, ho, h, rfl⟩
  · rintro (⟨rfl, rfl⟩ | ⟨label, inner, below, ho, h, rfl⟩)
    · exact .here rfl
    · exact .inside rfl ho h

/-- An address behind one more selection. -/
def shifted : List Nat → List Nat
  | [] => []
  | i :: below => (i + 1) :: below

theorem before_shifted (h : Before address address') :
    Before (shifted address) (shifted address') := by
  cases address' with
  | nil => exact absurd h not_before_nil
  | cons j below' =>
    cases address with
    | nil => exact .nil
    | cons i below => simpa [shifted, before_cons_iff] using h

/-- A use in a set is one in its first selection or one in the others, behind it. -/
theorem useAt_cons_iff {s : Selection} {rest : List Selection} :
    UseAt (s :: rest) address use ↔
      UseAt [s] address use ∨ ∃ below, UseAt rest below use ∧ shifted below = address := by
  constructor
  · intro h
    cases h with
    | @here _ i _ h =>
      cases i with
      | zero => exact .inl (.here h)
      | succ i => exact .inr ⟨[i], .here h, rfl⟩
    | @inside _ inner i t label below _ hs ho h =>
      cases i with
      | zero => exact .inl (.inside hs ho h)
      | succ i => exact .inr ⟨i :: below, .inside hs ho h, rfl⟩
  · rintro (hfirst | ⟨below, h, rfl⟩)
    · obtain ⟨rfl, rfl⟩ | ⟨label, inner, below, ho, h, rfl⟩ := useAt_singleton_iff.mp hfirst
      · exact .here rfl
      · exact .inside rfl ho h
    · cases h with
      | here h => exact .here h
      | inside hs ho h => exact .inside hs ho h

/-- Uses with their addresses are all those in a selection set, in the order of addresses. -/
structure IsReadingOf (uses : List (List Nat × Spread)) (set : List Selection) : Prop where
  /-- Their names are the names used. -/
  names : uses.map (fun u => u.2.name) = Selection.setUses set
  /-- One comes before the next. -/
  ordered : uses.Pairwise fun u v => Before u.1 v.1
  /-- They are those that stand in the set. -/
  mem_iff : ∀ u, u ∈ uses ↔ UseAt set u.1 u.2

theorem isReadingOf_nil : IsReadingOf [] [] where
  names := rfl
  ordered := .nil
  mem_iff u := by
    obtain ⟨address, use⟩ := u
    refine ⟨fun h => absurd h List.not_mem_nil, fun h => ?_⟩
    cases h with
    | here h => cases h
    | inside hs => cases hs

/-- The uses of a set are those of its first selection and those of the others behind it. -/
theorem IsReadingOf.cons {s : Selection} {rest : List Selection}
    {first uses : List (List Nat × Spread)} (h : IsReadingOf first [s])
    (hrest : IsReadingOf uses rest) :
    IsReadingOf (first ++ uses.map fun u => (shifted u.1, u.2)) (s :: rest) where
  names := by
    rw [List.map_append, List.map_map, h.names, Selection.setUses, Selection.setUses,
      List.append_nil, Selection.setUses, ← hrest.names]
    rfl
  ordered := by
    refine List.pairwise_append.mpr ⟨h.ordered, hrest.ordered.map _ fun u v => before_shifted, ?_⟩
    intro u hu v hv
    obtain ⟨⟨address, use⟩, hmem, rfl⟩ := List.mem_map.mp hv
    obtain ⟨below, hu⟩ : ∃ below, u.1 = 0 :: below := by
      obtain ⟨-, ha⟩ | ⟨-, -, below, -, -, ha⟩ := useAt_singleton_iff.mp ((h.mem_iff u).mp hu)
      · exact ⟨[], ha⟩
      · exact ⟨below, ha⟩
    obtain ⟨j, behind, rfl⟩ : ∃ j behind, address = j :: behind := by
      cases (hrest.mem_iff _).mp hmem <;> exact ⟨_, _, rfl⟩
    simp [hu, shifted, before_cons_iff]
  mem_iff u := by
    have hbehind : u ∈ uses.map (fun u => (shifted u.1, u.2)) ↔
        ∃ below, UseAt rest below u.2 ∧ shifted below = u.1 := by
      rw [List.mem_map]
      constructor
      · rintro ⟨v, hv, rfl⟩
        exact ⟨v.1, (hrest.mem_iff v).mp hv, rfl⟩
      · rintro ⟨below, hb, ha⟩
        exact ⟨(below, u.2), (hrest.mem_iff _).mpr hb, by rw [ha]⟩
    rw [List.mem_append, h.mem_iff, hbehind, ← useAt_cons_iff]

/-- The uses of a single selection are those in the set that it opens, below it. -/
theorem exists_isReadingOf_singleton {s : Selection}
    (hs : ∀ label inner, s.opening? = some (label, inner) → ∃ uses, IsReadingOf uses inner) :
    ∃ uses, IsReadingOf uses [s] := by
  have hopen : ∀ label inner, s.opening? = some (label, inner) →
      s.uses = Selection.setUses inner → ∃ uses, IsReadingOf uses [s] := by
    intro label inner ho hu
    obtain ⟨uses, h⟩ := hs label inner ho
    refine ⟨uses.map fun u => (0 :: u.1, u.2), ?_, ?_, ?_⟩
    · rw [List.map_map]
      simpa [Function.comp_def, hu] using h.names
    · exact h.ordered.map _ fun u v hb => before_cons_iff.mpr (.inr ⟨rfl, hb⟩)
    · intro u
      obtain ⟨address, use⟩ := u
      simp only [useAt_singleton_iff, List.mem_map, Prod.mk.injEq, ho]
      constructor
      · rintro ⟨v, hv, rfl, rfl⟩
        exact .inr ⟨label, inner, v.1, rfl, (h.mem_iff v).mp hv, rfl⟩
      · rintro (⟨rfl, -⟩ | ⟨_, _, below, heq, hb, rfl⟩)
        · cases ho
        · cases heq
          exact ⟨(below, use), (h.mem_iff _).mpr hb, rfl, rfl⟩
  cases s with
  | leaf f =>
    refine ⟨[], rfl, .nil, fun u => ?_⟩
    simp [useAt_singleton_iff, Selection.opening?]
  | nested f set => exact hopen _ _ rfl rfl
  | spread use =>
    refine ⟨[([0], use)], rfl, List.pairwise_singleton _ _, fun u => ?_⟩
    obtain ⟨address, use'⟩ := u
    simp [useAt_singleton_iff, Selection.opening?, eq_comm, and_comm]
  | inline head set => exact hopen _ _ rfl rfl

/-- Every selection set can be read from the first use to the last. -/
theorem exists_isReadingOf (set : List Selection) : ∃ uses, IsReadingOf uses set := by
  induction set using Selection.set_induction with
  | step set ih =>
    induction set with
    | nil => exact ⟨[], isReadingOf_nil⟩
    | cons s rest ihrest =>
      obtain ⟨first, hfirst⟩ := exists_isReadingOf_singleton (ih s List.mem_cons_self)
      obtain ⟨uses, huses⟩ := ihrest fun t ht => ih t (List.mem_cons_of_mem _ ht)
      exact ⟨_, hfirst.cons huses⟩

/-- Of the entries with one image the first is kept: what is left of the images comes in the order
in which the entries first have them. -/
theorem pairwise_eraseDups_map {α β : Type} [DecidableEq β] {f : α → β}
    {R : α → α → Prop} {xs : List α} (h : xs.Pairwise R) :
    (xs.map f).eraseDups.Pairwise fun a b =>
      a ≠ b ∧ ∀ y ∈ xs, f y = b → ∃ x ∈ xs, f x = a ∧ R x y := by
  induction hn : xs.length using Nat.strongRecOn generalizing xs with
  | ind n ih =>
    cases xs with
    | nil => exact .nil
    | cons x xs =>
      rw [List.pairwise_cons] at h
      have hfilter : (xs.map f).filter (fun b => !b == f x) =
          (xs.filter fun y => !f y == f x).map f := List.filter_map
      have hne : ∀ b ∈ ((xs.filter fun y => !f y == f x).map f).eraseDups, b ≠ f x := by
        intro b hb
        rw [← hfilter, List.mem_eraseDups, List.mem_filter] at hb
        simpa using hb.2
      rw [List.map_cons, List.eraseDups_cons, hfilter, List.pairwise_cons]
      constructor
      · intro b hb
        refine ⟨(hne b hb).symm, fun y hy hyb => ⟨x, List.mem_cons_self, rfl, h.1 y ?_⟩⟩
        obtain rfl | hy := List.mem_cons.mp hy
        · exact absurd hyb.symm (hne b hb)
        · exact hy
      · have hlt : (xs.filter fun y => !f y == f x).length < n := by
          have := List.length_filter_le (fun y => !f y == f x) xs
          rw [← hn, List.length_cons]
          omega
        refine (ih _ hlt (h.2.filter _) rfl).imp_of_mem fun {a b} _ hb hab => ⟨hab.1, ?_⟩
        intro y hy hyb
        have hyx : f y ≠ f x := hyb ▸ hne b hb
        obtain rfl | hy := List.mem_cons.mp hy
        · exact absurd rfl hyx
        · obtain ⟨z, hz, hza, hR⟩ := hab.2 y (List.mem_filter.mpr ⟨hy, by simpa using hyx⟩) hyb
          exact ⟨z, List.mem_cons_of_mem _ (List.mem_filter.mp hz).1, hza, hR⟩

/-- A name is first used before another: before every use of the other there is one of it. -/
def FirstUsedBefore (set : List Selection) (a b : String) : Prop :=
  ∀ address use, UseAt set address use → use.name = b →
    ∃ address' use', UseAt set address' use' ∧ use'.name = a ∧ Before address' address

/-- The names of the fragments used differ and come in the order of their first uses. -/
theorem pairwise_spreads (set : List Selection) :
    (spreads set).Pairwise fun a b => a ≠ b ∧ FirstUsedBefore set a b := by
  obtain ⟨uses, h⟩ := exists_isReadingOf set
  rw [spreads, ← h.names]
  refine (pairwise_eraseDups_map h.ordered).imp ?_
  rintro a b ⟨hne, hab⟩
  refine ⟨hne, fun address use hat hb => ?_⟩
  obtain ⟨u, hu, ha, hbefore⟩ := hab (address, use) ((h.mem_iff _).mpr hat) hb
  exact ⟨u.1, u.2, (h.mem_iff u).mp hu, ha, hbefore⟩

end Uses

end Safelist
