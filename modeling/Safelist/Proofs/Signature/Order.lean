import Mathlib.Data.List.Sort
import Safelist.Signature.Canonical

/-!
# Stable sorting by keys

Two lists are stable rearrangements of each other when the entries of each key
form the same list in both. Sorting by key gives the one rearrangement that is in
order, so two lists are sorted alike exactly when they are stable rearrangements
of each other. What keeps keys, or only drops entries, can be done before or after
sorting.
-/

namespace Safelist.Signature

namespace Key

theorem le_iff {a b : Key} :
    a.le b = true ↔ a.rank < b.rank ∨ a.rank = b.rank ∧ a.name ≤ b.name := by
  simp [le]

theorem le_refl (a : Key) : a.le a = true := by
  simp [le]

theorem le_trans (a b c : Key) (hab : a.le b = true) (hbc : b.le c = true) : a.le c = true := by
  rw [le_iff] at *
  obtain hab | ⟨hab, hn⟩ := hab
  · left
    omega
  · obtain hbc | ⟨hbc, hn'⟩ := hbc
    · left
      omega
    · exact .inr ⟨hab.trans hbc, String.le_trans hn hn'⟩

theorem le_total (a b : Key) : (a.le b || b.le a) = true := by
  rw [Bool.or_eq_true, le_iff, le_iff]
  obtain hr | hr | hr := Nat.lt_trichotomy a.rank b.rank
  · exact .inl (.inl hr)
  · obtain hn | hn := String.le_total a.name b.name
    · exact .inl (.inr ⟨hr, hn⟩)
    · exact .inr (.inr ⟨hr.symm, hn⟩)
  · exact .inr (.inl hr)

theorem le_antisymm {a b : Key} (hab : a.le b = true) (hba : b.le a = true) : a = b := by
  rw [le_iff] at *
  obtain hab | ⟨hr, hn⟩ := hab
  · omega
  · obtain hba | ⟨-, hn'⟩ := hba
    · omega
    · cases a
      cases b
      simp only at hr hn hn'
      rw [hr, String.le_antisymm hn hn']

end Key

variable {α β : Type} {key : α → Key}

/-- The entries of one key, in order. -/
def entriesOf (key : α → Key) (k : Key) (xs : List α) : List α := xs.filter fun x => key x = k

/-- The entries of each key form the same list. -/
def StablePerm (key : α → Key) (xs ys : List α) : Prop :=
  ∀ k, entriesOf key k xs = entriesOf key k ys

namespace StablePerm

theorem refl (key : α → Key) (xs : List α) : StablePerm key xs xs := fun _ => rfl

theorem symm {xs ys : List α} (h : StablePerm key xs ys) : StablePerm key ys xs :=
  fun k => (h k).symm

theorem trans {xs ys zs : List α} (h : StablePerm key xs ys) (h' : StablePerm key ys zs) :
    StablePerm key xs zs :=
  fun k => (h k).trans (h' k)

/-- A stable rearrangement has the same entries. -/
theorem mem_iff {xs ys : List α} (h : StablePerm key xs ys) {x : α} : x ∈ xs ↔ x ∈ ys := by
  have hk : x ∈ entriesOf key (key x) xs ↔ x ∈ entriesOf key (key x) ys := by rw [h]
  simpa [entriesOf] using hk

/-- The same first entry makes no difference. -/
theorem cons_iff {x : α} {xs ys : List α} :
    StablePerm key (x :: xs) (x :: ys) ↔ StablePerm key xs ys := by
  refine forall_congr' fun k => ?_
  by_cases hx : key x = k <;> simp [entriesOf, hx]

/-- An entry can move to the front past entries of other keys. -/
theorem middle {y : α} {front : List α} (hf : ∀ z ∈ front, key z ≠ key y) (back : List α) :
    StablePerm key (front ++ y :: back) (y :: (front ++ back)) := by
  intro k
  by_cases hy : key y = k
  · have hn : entriesOf key k front = [] :=
      List.filter_eq_nil_iff.mpr fun z hz => by simpa using hy ▸ hf z hz
    unfold entriesOf at *
    rw [List.filter_append, hn]
    simp [hn, hy]
  · simp [entriesOf, hy]

/-- What keeps keys keeps rearrangements stable. -/
theorem map {key' : β → Key} {f : α → β} (hf : ∀ x, key' (f x) = key x) {xs ys : List α}
    (h : StablePerm key xs ys) : StablePerm key' (xs.map f) (ys.map f) := by
  intro k
  have hk := congrArg (List.map f) (h k)
  simpa [entriesOf, List.filter_map, Function.comp_def, hf] using hk

/-- Dropping entries keeps rearrangements stable. -/
theorem filter (p : α → Bool) {xs ys : List α} (h : StablePerm key xs ys) :
    StablePerm key (xs.filter p) (ys.filter p) := by
  intro k
  have hk := congrArg (List.filter p) (h k)
  simpa [entriesOf, List.filter_filter, Bool.and_comm] using hk

/-- The first entry of a key is the same. -/
theorem find?_eq {k : Key} {p : α → Bool} (hp : ∀ x, p x = decide (key x = k)) {xs ys : List α}
    (h : StablePerm key xs ys) : xs.find? p = ys.find? p := by
  obtain rfl : p = fun x => decide (key x = k) := funext hp
  rw [← List.head?_filter, ← List.head?_filter]
  exact congrArg List.head? (h k)

end StablePerm

theorem sortByKey_perm (key : α → Key) (xs : List α) : (sortByKey key xs).Perm xs :=
  List.mergeSort_perm _ _

@[simp] theorem mem_sortByKey {xs : List α} {x : α} : x ∈ sortByKey key xs ↔ x ∈ xs :=
  (sortByKey_perm key xs).mem_iff

@[simp] theorem sortByKey_eq_nil_iff {xs : List α} : sortByKey key xs = [] ↔ xs = [] := by
  rw [← List.length_eq_zero_iff, ← List.length_eq_zero_iff, (sortByKey_perm key xs).length_eq]

/-- A sorted list is in order. -/
theorem pairwise_sortByKey (key : α → Key) (xs : List α) :
    (sortByKey key xs).Pairwise fun a b => (key a).le (key b) = true :=
  List.pairwise_mergeSort (fun a b c => Key.le_trans (key a) (key b) (key c))
    (fun a b => Key.le_total (key a) (key b)) xs

/-- Sorting is stable: entries of one key stay in the order they had. -/
theorem stablePerm_sortByKey (key : α → Key) (xs : List α) :
    StablePerm key (sortByKey key xs) xs := by
  intro k
  have hp : (entriesOf key k xs).Pairwise fun a b => (key a).le (key b) = true := by
    refine List.pairwise_iff_forall_sublist.mpr fun {a b} hab => ?_
    have ha : a ∈ entriesOf key k xs := hab.subset (by simp)
    have hb : b ∈ entriesOf key k xs := hab.subset (by simp)
    simp only [entriesOf, List.mem_filter, decide_eq_true_eq] at ha hb
    rw [ha.2, hb.2]
    exact k.le_refl
  have hs : (entriesOf key k xs).Sublist (sortByKey key xs) :=
    List.sublist_mergeSort (fun a b c => Key.le_trans (key a) (key b) (key c))
      (fun a b => Key.le_total (key a) (key b)) hp List.filter_sublist
  have hs' := hs.filter fun x => decide (key x = k)
  rw [entriesOf, List.filter_filter] at hs'
  simp only [Bool.and_self] at hs'
  exact (hs'.eq_of_length ((sortByKey_perm key xs).filter _).length_eq.symm).symm

/-- A rearrangement that is in order is determined. -/
theorem StablePerm.eq_of_pairwise {xs ys : List α} (h : StablePerm key xs ys)
    (hx : xs.Pairwise fun a b => (key a).le (key b) = true)
    (hy : ys.Pairwise fun a b => (key a).le (key b) = true) : xs = ys := by
  induction xs generalizing ys with
  | nil =>
    cases ys with
    | nil => rfl
    | cons y ys => simpa using h.mem_iff (x := y)
  | cons x xs ih =>
    cases ys with
    | nil => simpa using h.mem_iff (x := x)
    | cons y ys =>
      rw [List.pairwise_cons] at hx hy
      have hxy : (key x).le (key y) = true := by
        obtain rfl | hm := List.mem_cons.mp (h.mem_iff.mpr (List.mem_cons_self (a := y)))
        · exact (key _).le_refl
        · exact hx.1 y hm
      have hyx : (key y).le (key x) = true := by
        obtain rfl | hm := List.mem_cons.mp (h.mem_iff.mp (List.mem_cons_self (a := x)))
        · exact (key _).le_refl
        · exact hy.1 x hm
      have hk : key y = key x := Key.le_antisymm hyx hxy
      have hhead := h (key x)
      simp only [entriesOf, List.filter_cons, hk, decide_true, if_true, List.cons.injEq] at hhead
      obtain ⟨rfl, -⟩ := hhead
      rw [ih (cons_iff.mp h) hx.2 hy.2]

/-- Putting an entry into its place changes no key's entries. -/
theorem stablePerm_orderedInsert (key : α → Key) (x : α) (xs : List α) :
    StablePerm key (xs.orderedInsert (fun a b => (key a).le (key b) = true) x) (x :: xs) := by
  induction xs with
  | nil => exact .refl key [x]
  | cons y ys ih =>
    by_cases hxy : (key x).le (key y) = true
    · rw [List.orderedInsert_cons_of_le (fun a b => (key a).le (key b) = true) ys hxy]
      exact .refl key _
    · rw [List.orderedInsert_of_not_le (fun a b => (key a).le (key b) = true) ys hxy]
      have hne : key y ≠ key x := fun h => hxy (h ▸ (key y).le_refl)
      have hmiddle : StablePerm key ([x] ++ y :: ys) (y :: ([x] ++ ys)) :=
        .middle (List.forall_mem_singleton.mpr hne.symm) ys
      exact (StablePerm.cons_iff.mpr ih).trans hmiddle.symm

theorem stablePerm_insertionSort (key : α → Key) (xs : List α) :
    StablePerm key (xs.insertionSort fun a b => (key a).le (key b) = true) xs := by
  induction xs with
  | nil => exact .refl key []
  | cons x xs ih =>
    exact (stablePerm_orderedInsert key x _).trans (StablePerm.cons_iff.mpr ih)

/-- Sorting can be done by putting the entries into their places one by one. This is by recursion
on the list, so a closed list is sorted by evaluation. -/
theorem sortByKey_eq_insertionSort (key : α → Key) :
    sortByKey key = List.insertionSort fun a b => (key a).le (key b) = true := by
  funext xs
  have : Std.Total fun a b : α => (key a).le (key b) = true :=
    ⟨fun a b => by simpa using Key.le_total (key a) (key b)⟩
  have : IsTrans α fun a b => (key a).le (key b) = true :=
    ⟨fun a b c => Key.le_trans (key a) (key b) (key c)⟩
  exact ((stablePerm_sortByKey key xs).trans (stablePerm_insertionSort key xs).symm).eq_of_pairwise
    (pairwise_sortByKey key xs) (List.pairwise_insertionSort _ xs)

/-- Two lists are sorted alike exactly when they are stable rearrangements of each other. -/
theorem sortByKey_eq_iff {xs ys : List α} :
    sortByKey key xs = sortByKey key ys ↔ StablePerm key xs ys := by
  constructor
  · intro h
    exact (stablePerm_sortByKey key xs).symm.trans (h ▸ stablePerm_sortByKey key ys)
  · intro h
    exact (((stablePerm_sortByKey key xs).trans h).trans
      (stablePerm_sortByKey key ys).symm).eq_of_pairwise (pairwise_sortByKey key xs)
        (pairwise_sortByKey key ys)

/-- What is sorted stays as it is. -/
@[simp] theorem sortByKey_sortByKey (key : α → Key) (xs : List α) :
    sortByKey key (sortByKey key xs) = sortByKey key xs :=
  sortByKey_eq_iff.mpr (stablePerm_sortByKey key xs)

/-- What keeps keys can be done before sorting. -/
theorem sortByKey_map {key' : β → Key} {f : α → β} (hf : ∀ x, key' (f x) = key x)
    (xs : List α) : sortByKey key' (xs.map f) = (sortByKey key xs).map f := by
  unfold sortByKey
  refine (List.map_mergeSort fun a _ b _ => ?_).symm
  rw [hf, hf]

/-- What keeps keys and can be exchanged with a change of entries can be done after the
changed entries are sorted. -/
theorem sortByKey_map_comm {f m : α → α} {xs : List α} (hf : ∀ x ∈ xs, f (m x) = m (f x))
    (hm : ∀ x, key (m x) = key x) :
    sortByKey key ((xs.map m).map f) = (sortByKey key (xs.map f)).map m := by
  rw [← sortByKey_map hm, List.map_map, List.map_map]
  exact congrArg _ (List.map_congr_left hf)

/-- Changing and sorting twice is changing and sorting once. -/
theorem sortByKey_map_idem {f : α → α} {xs : List α} (hf : ∀ x ∈ xs, f (f x) = f x)
    (hk : ∀ x, key (f x) = key x) :
    sortByKey key ((sortByKey key (xs.map f)).map f) = sortByKey key (xs.map f) := by
  rw [← sortByKey_map hk, sortByKey_sortByKey, List.map_map]
  exact congrArg _ (List.map_congr_left hf)

/-- Entries can be dropped before sorting. -/
theorem sortByKey_filter (p : α → Bool) (xs : List α) :
    sortByKey key (xs.filter p) = (sortByKey key xs).filter p := by
  refine (((stablePerm_sortByKey key xs).filter p).trans
    (stablePerm_sortByKey key (xs.filter p)).symm).eq_of_pairwise
      ((pairwise_sortByKey key xs).filter p) (pairwise_sortByKey key _) |>.symm

end Safelist.Signature
