import Safelist.Document.Basic

/-!
# Uses of fragments

The spreads of a selection set are the names of the fragments it uses directly.
Its reach is what it uses directly or through other fragments, found breadth
first: every name is looked up once, so cycles of fragments end.
-/

namespace Safelist

mutual

/-- The names used in a selection, at any depth, in order and with repetitions. -/
def Selection.uses : Selection → List String
  | .leaf _ => []
  | .nested _ set => Selection.setUses set
  | .spread s => [s.name]
  | .inline _ set => Selection.setUses set

/-- The names used in a selection set, at any depth, in order and with repetitions. -/
def Selection.setUses : List Selection → List String
  | [] => []
  | s :: rest => s.uses ++ Selection.setUses rest

end

/-- The names of the fragments that a selection set uses directly, each at its first
occurrence. -/
def spreads (set : List Selection) : List String := (Selection.setUses set).eraseDups

/-- What a selection set uses, directly or through fragments. -/
structure Reach where
  /-- The fragments used, in order of discovery. -/
  fragments : List Fragment
  /-- The names used for which there is no fragment, in order of discovery. -/
  missing : List String

namespace Reach

/-- The names of the fragments used. -/
def names (r : Reach) : List String := r.fragments.map Fragment.name

/-- How many names the fragments of a pool can still bring into a queue, and one more for each
fragment. -/
def supply : List Fragment → Nat
  | [] => 0
  | f :: pool => (spreads f.selections).length + 1 + supply pool

theorem supply_filter_le (p : Fragment → Bool) (pool : List Fragment) :
    supply (pool.filter p) ≤ supply pool := by
  induction pool with
  | nil => exact Nat.le_refl _
  | cons f pool ih =>
    rw [List.filter_cons]
    split <;> simp only [supply] <;> omega

/-- The names that a fragment brings into the queue leave the supply with it. -/
theorem supply_filter_lt {pool : List Fragment} {f : Fragment} {name : String}
    (h : pool.find? (·.name == name) = some f) :
    supply (pool.filter (·.name != name)) + (spreads f.selections).length < supply pool := by
  induction pool with
  | nil => cases h
  | cons g pool ih =>
    rw [List.find?_cons] at h
    rw [List.filter_cons, bne]
    cases hg : g.name == name with
    | true =>
      rw [hg] at h
      cases h
      have hle := supply_filter_le (·.name != name) pool
      simp only [Bool.not_true, Bool.false_eq_true, if_false, supply]
      omega
    | false =>
      rw [hg] at h
      have hlt := ih h
      simp only [Bool.not_false, if_true, supply]
      omega

/-- Look up names in turn. A fragment is taken out of the pool when it is reached, and
the names it uses join the end of the queue; the first fragment of a name in the pool is
the one meant. A name that is not in the pool has been reached before or is missing. -/
def explore (pool : List Fragment) (found : Reach) (queue : List String) : Reach :=
  match queue with
  | [] => found
  | name :: queue =>
    match _h : pool.find? (·.name == name) with
    | some f =>
      explore (pool.filter (·.name != name)) { found with fragments := found.fragments ++ [f] }
        (queue ++ spreads f.selections)
    | none =>
      if found.names.contains name || found.missing.contains name then explore pool found queue
      else explore pool { found with missing := found.missing ++ [name] } queue
termination_by supply pool + queue.length
decreasing_by
  · have hlt := supply_filter_lt _h
    simp
    omega
  · simp
  · simp

end Reach

/-- What a selection set uses among some fragments. -/
def reach (fragments : List Fragment) (set : List Selection) : Reach :=
  Reach.explore fragments ⟨[], []⟩ (spreads set)

end Safelist
