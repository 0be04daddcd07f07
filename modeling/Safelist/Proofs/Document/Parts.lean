import Safelist.Document.Edit
import Safelist.Document.Printer
import Safelist.Document.Registrable

/-!
# Trees and the lists in them

Values and selections hold lists of their own kind. Statements about them are
proved for a tree from the trees in its lists, and what is computed by going
through such a list is a map, a filter or a concatenation of it.
-/

namespace Safelist

/-- A statement holds of every value if it passes from the values inside a value to it. -/
@[elab_as_elim, induction_eliminator]
theorem Value.induction {motive : Value → Prop} (var : ∀ name, motive (.var name))
    (int : ∀ text, motive (.int text)) (float : ∀ text, motive (.float text))
    (string : ∀ value isBlock, motive (.string value isBlock))
    (boolean : ∀ value, motive (.boolean value)) (null : motive .null)
    (enum : ∀ name, motive (.enum name))
    (list : ∀ items, (∀ v ∈ items, motive v) → motive (.list items))
    (object : ∀ members, (∀ m ∈ members, motive m.2) → motive (.object members)) (v : Value) :
    motive v := by
  refine @Value.rec motive (fun items => ∀ v ∈ items, motive v)
    (fun members => ∀ m ∈ members, motive m.2) (fun m => motive m.2) var int float string boolean
    null enum list object ?_ ?_ ?_ ?_ ?_ v
  · simp
  · intro v rest hv hrest
    exact List.forall_mem_cons.2 ⟨hv, hrest⟩
  · simp
  · intro m rest hm hrest
    exact List.forall_mem_cons.2 ⟨hm, hrest⟩
  · intro name v hv
    exact hv

/-- A statement holds of every selection if it passes from the selections in a selection's
set to it. -/
@[elab_as_elim, induction_eliminator]
theorem Selection.induction {motive : Selection → Prop} (leaf : ∀ f, motive (.leaf f))
    (nested : ∀ f set, (∀ s ∈ set, motive s) → motive (.nested f set))
    (spread : ∀ use, motive (.spread use))
    (inline : ∀ head set, (∀ s ∈ set, motive s) → motive (.inline head set)) (s : Selection) :
    motive s := by
  refine @Selection.rec motive (fun set => ∀ s ∈ set, motive s) leaf nested spread inline
    ?_ ?_ s
  · simp
  · intro s rest hs hrest
    exact List.forall_mem_cons.2 ⟨hs, hrest⟩

/-- The pieces of the values of a list are those of each. -/
@[simp] theorem Value.listPieces_eq_map (items : List Value) :
    Value.listPieces items = items.map Value.pieces := by
  induction items with
  | nil => rfl
  | cons v rest ih => rw [Value.listPieces, ih, List.map_cons]

/-- The pieces of the members of an input object are those of each. -/
@[simp] theorem Value.memberPieces_eq_map (members : List (String × Value)) :
    Value.memberPieces members =
      members.map fun m => .ofName m.1 :: .ofMark .colon :: m.2.pieces := by
  induction members with
  | nil => rfl
  | cons m rest ih => rw [Value.memberPieces, ih, List.map_cons]

/-- The pieces of selections in a row are those of each. -/
@[simp] theorem Selection.listPieces_eq_flatMap (set : List Selection) :
    Selection.listPieces set = set.flatMap Selection.pieces := by
  induction set with
  | nil => rfl
  | cons s rest ih => rw [Selection.listPieces, ih, List.flatMap_cons]

/-- The names used in a selection set are those used in each selection. -/
@[simp] theorem Selection.setUses_eq_flatMap (set : List Selection) :
    Selection.setUses set = set.flatMap Selection.uses := by
  induction set with
  | nil => rfl
  | cons s rest ih => rw [Selection.setUses, ih, List.flatMap_cons]

/-- The way to an empty selection set is found in the first selection that holds one. -/
@[simp] theorem Selection.firstEmptyPath?_eq_findSome? (set : List Selection) :
    Selection.firstEmptyPath? set = set.findSome? Selection.emptyPath? := by
  induction set with
  | nil => rfl
  | cons s rest ih =>
    rw [Selection.firstEmptyPath?, ih, List.findSome?_cons]
    cases s.emptyPath? <;> rfl

/-- A list that is mapped to itself is so item by item. -/
theorem eq_of_map_eq_self {α : Type} {f : α → α} {xs : List α} (h : xs.map f = xs) :
    ∀ x ∈ xs, f x = x :=
  List.map_inj_left.mp (h.trans (List.map_id xs).symm)

/-- A change that does one thing to all definitions of a kind does it to each of those picked. -/
theorem Definition.filterMap_map_comm {α : Type} {pick : Definition → Option α}
    {change : Definition → Definition} {onPicked : α → α}
    (h : ∀ x, pick (change x) = (pick x).map onPicked) (ds : List Definition) :
    (ds.map change).filterMap pick = (ds.filterMap pick).map onPicked := by
  rw [List.filterMap_map, List.map_filterMap]
  exact congrArg (ds.filterMap ·) (funext h)

namespace Edit

variable (e : Edit)

/-- The items of a list are edited one by one. -/
@[simp] theorem onItems_eq_map (items : List Value) : e.onItems items = items.map e.onValue := by
  induction items with
  | nil => rfl
  | cons v rest ih => rw [onItems, ih, List.map_cons]

/-- The members of an input object are edited one by one. -/
@[simp] theorem onMembers_eq_map (members : List (String × Value)) :
    e.onMembers members = members.map fun m => (m.1, e.onValue m.2) := by
  induction members with
  | nil => rfl
  | cons m rest ih => rw [onMembers, ih, List.map_cons]

/-- Selections are edited one by one, and what is dropped is left out. -/
@[simp] theorem onEach_eq_filterMap (set : List Selection) :
    e.onEach set = set.filterMap e.onSelection := by
  induction set with
  | nil => rfl
  | cons s rest ih =>
    rw [onEach, ih, List.filterMap_cons]
    cases e.onSelection s <;> rfl

end Edit

end Safelist
