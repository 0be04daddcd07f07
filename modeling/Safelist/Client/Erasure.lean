import Safelist.Client.Annotation
import Safelist.Document.Spreads

/-!
# Erasure of client-side fields

Fields that the client resolves itself do not reach the server. Taking them out
may leave a selection without anything below it, which then goes too. A fragment
that is left empty goes together with every use of it, in rounds, until no empty
fragment is left. At last the fragments that no operation uses are dropped. The
roots of operations stay, even when nothing is left in them.
-/

namespace Safelist.Client

/-- Whether a selection has a selection set with nothing in it. -/
def isEmptied : Selection → Bool
  | .leaf _ => false
  | .nested _ set => set.isEmpty
  | .spread _ => false
  | .inline _ set => set.isEmpty

/-- Whether a selection is a field that the client resolves. -/
def isClientField (names : List String) : Selection → Bool
  | .leaf f => isAnnotated names f.directives
  | .nested f _ => isAnnotated names f.directives
  | .spread _ => false
  | .inline _ _ => false

/-- Whether a selection is the use of one of these fragments. -/
def isUse (names : List String) : Selection → Bool
  | .spread s => names.contains s.name
  | _ => false

/-- The edit that drops certain selections, and those that are empty then. -/
def dropping (unwanted : Selection → Bool) : Edit where
  selection s := if unwanted s || isEmptied s then none else some s

/-- The names of the fragments that are left empty. -/
def emptyFragments (d : Document) : List String :=
  (d.fragments.filter fun f => f.selections.isEmpty).map Fragment.name

/-- Whether a definition is a fragment of one of these names. -/
def isFragmentOf (names : List String) : Definition → Bool
  | .operation _ => false
  | .fragment f => names.contains f.name

/-- A document without the fragments of some names and without the uses of them. -/
def dropFragments (names : List String) (d : Document) : Document :=
  (dropping (isUse names)).apply ⟨d.definitions.filter fun e => !isFragmentOf names e⟩

/-- An empty fragment is a definition that its own round drops. -/
theorem exists_isFragmentOf_emptyFragments {d : Document} (h : emptyFragments d ≠ []) :
    ∃ e ∈ d.definitions, isFragmentOf (emptyFragments d) e = true := by
  obtain ⟨name, hn⟩ := List.exists_mem_of_ne_nil _ h
  obtain ⟨f, hf, rfl⟩ := List.mem_map.1 hn
  obtain ⟨e, he, hfe⟩ := List.mem_filterMap.1 (List.mem_filter.1 hf).1
  cases e with
  | operation op => cases hfe
  | fragment g =>
    cases hfe
    exact ⟨_, he, by simpa [isFragmentOf] using hn⟩

/-- A round with an empty fragment leaves fewer definitions. -/
theorem length_dropFragments_lt {d : Document} (h : emptyFragments d ≠ []) :
    (dropFragments (emptyFragments d) d).definitions.length < d.definitions.length := by
  obtain ⟨e, he, hf⟩ := exists_isFragmentOf_emptyFragments h
  have hlt := List.length_filter_lt_length_iff_exists (p := fun e =>
    !isFragmentOf (emptyFragments d) e).2 ⟨e, he, by simp [hf]⟩
  simpa [dropFragments, Edit.apply, dropping] using hlt

/-- A document without empty fragments and without the uses of them. -/
def dropEmptyFragments (d : Document) : Document :=
  if _h : emptyFragments d = [] then d
  else dropEmptyFragments (dropFragments (emptyFragments d) d)
termination_by d.definitions.length
decreasing_by exact length_dropFragments_lt _h

/-- The names of the fragments that the operations of a document use. -/
def usedNames (d : Document) : List String :=
  d.operations.flatMap fun op => (reach d.fragments op.selections).names

/-- A document without the fragments that no operation uses. -/
def dropUnusedFragments (d : Document) : Document :=
  let used := usedNames d
  ⟨d.definitions.filter fun
    | .operation _ => true
    | .fragment f => used.contains f.name⟩

/-- A document without the fields that carry a directive of these names, and without what
is left empty or unused for it. Where there are no names, nothing is dropped at all. -/
def eraseClientFields (names : List String) (d : Document) : Document :=
  if names.isEmpty then d
  else dropUnusedFragments (dropEmptyFragments ((dropping (isClientField names)).apply d))

end Safelist.Client
