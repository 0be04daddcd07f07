import Safelist.Document.Basic

/-!
# Sets of operations

A set of operations holds documents under names. Names are unique and stay in
the order in which they were inserted; what is in the set is never replaced.
-/

namespace Safelist

/-- Documents under unique names. -/
structure OperationSet where
  /-- Names and documents in the order of insertion. -/
  entries : List (String × Document)
  /-- No name is there twice. -/
  nodup : (entries.map Prod.fst).Nodup

namespace OperationSet

/-- The set without entries. -/
def empty : OperationSet := ⟨[], List.nodup_nil⟩

/-- The names in the order of insertion. -/
def names (set : OperationSet) : List String := set.entries.map Prod.fst

/-- The number of entries. -/
def size (set : OperationSet) : Nat := set.entries.length

/-- Whether there are no entries. -/
def isEmpty (set : OperationSet) : Bool := set.entries.isEmpty

/-- The document under a name. -/
def get? (set : OperationSet) (name : String) : Option Document :=
  (set.entries.find? (·.1 == name)).map Prod.snd

/-- The set with one more entry at its end, unless the name is taken. -/
def insert? (set : OperationSet) (name : String) (d : Document) : Option OperationSet :=
  if h : name ∈ set.names then none
  else
    some
      { entries := set.entries ++ [(name, d)]
        nodup := by
          rw [List.map_append, List.nodup_append]
          refine ⟨set.nodup, by simp, ?_⟩
          intro a ha b hb hab
          simp only [List.map_cons, List.map_nil, List.mem_singleton] at hb
          exact h (hb ▸ hab ▸ ha) }

/-- What is in the set after an insertion. -/
theorem entries_insert? {set other : OperationSet} {name : String} {d : Document}
    (h : set.insert? name d = some other) : other.entries = set.entries ++ [(name, d)] := by
  unfold insert? at h
  split at h
  · cases h
  · cases h
    rfl

/-- An insertion is refused exactly when the name is taken. -/
theorem insert?_eq_none_iff {set : OperationSet} {name : String} {d : Document} :
    set.insert? name d = none ↔ name ∈ set.names := by
  unfold insert?
  split <;> simp [*]

end OperationSet

end Safelist
