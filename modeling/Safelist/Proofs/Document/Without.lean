import Safelist.Proofs.Document.Parts

/-!
# Documents without some selections

Selections that satisfy a condition are taken out of every selection set, at any
depth. The others keep their order and their heads, and a selection that satisfies
the condition goes together with all that is below it.
-/

namespace Safelist

variable (p : Selection → Prop) [DecidablePred p]

mutual

/-- A selection without those below it, at any depth, that satisfy a condition. -/
def Selection.without : Selection → Selection
  | .leaf f => .leaf f
  | .nested f set => .nested f (Selection.setWithout set)
  | .spread s => .spread s
  | .inline head set => .inline head (Selection.setWithout set)

/-- A selection set without the selections in it, at any depth, that satisfy a condition. -/
def Selection.setWithout : List Selection → List Selection
  | [] => []
  | s :: rest => if p s then Selection.setWithout rest else s.without :: Selection.setWithout rest

end

/-- An operation without the selections that satisfy a condition. -/
def Operation.without (op : Operation) : Operation :=
  { op with selections := Selection.setWithout p op.selections }

/-- A fragment without the selections that satisfy a condition. -/
def Fragment.without (f : Fragment) : Fragment :=
  { f with selections := Selection.setWithout p f.selections }

/-- A definition without the selections that satisfy a condition. -/
def Definition.without : Definition → Definition
  | .operation op => .operation (op.without p)
  | .fragment f => .fragment (f.without p)

/-- A document without the selections that satisfy a condition. -/
def Document.without (d : Document) : Document := ⟨d.definitions.map (Definition.without p)⟩

theorem Document.operations_without (d : Document) :
    (d.without p).operations = d.operations.map (Operation.without p) :=
  Definition.filterMap_map_comm (fun x => by cases x <;> rfl) d.definitions

theorem Document.fragments_without (d : Document) :
    (d.without p).fragments = d.fragments.map (Fragment.without p) :=
  Definition.filterMap_map_comm (fun x => by cases x <;> rfl) d.definitions

variable {p}

/-- Nothing is left of a selection set just when all of it satisfies the condition. -/
theorem Selection.setWithout_eq_nil_iff {set : List Selection} :
    Selection.setWithout p set = [] ↔ ∀ s ∈ set, p s := by
  induction set with
  | nil => simp [Selection.setWithout]
  | cons s rest ih =>
    by_cases hs : p s
    · simp [Selection.setWithout, hs, ih]
    · simp [Selection.setWithout, hs]

/-- A selection set of which nothing satisfies the condition, nor anything inside it, stays. -/
theorem Selection.setWithout_eq_self {set : List Selection}
    (h : ∀ s ∈ set, ¬p s ∧ s.without p = s) : Selection.setWithout p set = set := by
  induction set with
  | nil => rfl
  | cons s rest ih =>
    obtain ⟨⟨hs, heq⟩, hrest⟩ := List.forall_mem_cons.mp h
    rw [Selection.setWithout, if_neg hs, heq, ih hrest]

end Safelist
