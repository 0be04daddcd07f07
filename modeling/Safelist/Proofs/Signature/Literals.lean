import Safelist.Proofs.Document.SameText
import Safelist.Proofs.Signature.Sorted
import Safelist.Signature.Engine

/-!
# What texts say of literals

The canonical text of a redacted document is that of its shape, in which literals
are forgotten altogether. The text behind an engine signature even forgets what
lists and input objects hold.
-/

namespace Safelist

open Signature

section Values

@[simp] theorem Value.shape_shape (v : Value) : v.shape.shape = v.shape :=
  Value.mapLeaves_mapLeaves (fun v hv => by cases v <;> exact ⟨hv, rfl⟩) v

@[simp] theorem Value.plain_shape (v : Value) : v.shape.plain = v.shape :=
  Value.mapLeaves_mapLeaves (fun v hv => by cases v <;> exact ⟨hv, rfl⟩) v

/-- A value without parts is in order. -/
theorem Value.sorted_of_isLeaf {v : Value} (hv : v.isLeaf = true) : v.sorted = v := by
  cases v with
  | list items => cases hv
  | object members => cases hv
  | _ => rfl

/-- Leaves can be changed before a value is brought into order. -/
theorem Value.sorted_mapLeaves {f : Value → Value}
    (hf : ∀ v, v.isLeaf = true → (f v).isLeaf = true) (v : Value) :
    (v.mapLeaves f).sorted = v.sorted.mapLeaves f := by
  have hleaf : ∀ v : Value, v.isLeaf = true →
      (v.mapLeaves f).sorted = v.sorted.mapLeaves f := by
    intro v hv
    rw [sorted_of_isLeaf hv, mapLeaves_of_isLeaf f hv, sorted_of_isLeaf (hf v hv)]
  induction v with
  | list items ih => simpa using ih
  | object members ih =>
    rw [mapLeaves_object, sorted_object, sorted_object, mapLeaves_object]
    congr 1
    exact sortByKey_map_comm (fun m hm => by rw [ih m hm]) fun _ => rfl
  | _ => exact hleaf _ rfl

theorem Value.sorted_shape (v : Value) : v.shape.sorted = v.sorted.shape :=
  Value.sorted_mapLeaves (fun v hv => by cases v <;> exact hv) v

theorem Value.sorted_asInt (v : Value) : v.asInt.sorted = v.sorted.asInt :=
  Value.sorted_mapLeaves (fun v hv => by cases v <;> exact hv) v

/-- A value of which only its kind is left. -/
def Value.outline : Value → Value
  | .list _ => .list []
  | .object _ => .object []
  | v => v.shape

@[simp] theorem Value.outline_shape (v : Value) : v.shape.outline = v.outline := by
  cases v with
  | list items => simp [Value.outline]
  | object members => simp [Value.outline]
  | _ => rfl

theorem Value.sorted_outline (v : Value) : v.outline.sorted = v.sorted.outline := by
  cases v with
  | list items => simp [Value.outline]
  | object members => simp [Value.outline]
  | _ => rfl

theorem Value.asInt_redacted (v : Value) : (v.mapLeaves redactValue).asInt = v.shape :=
  Value.mapLeaves_mapLeaves (fun v hv => by cases v <;> exact ⟨hv, rfl⟩) v

theorem Value.asInt_hidden (v : Value) :
    ((Edit.pointwise blankValue id).onValue v).asInt = v.outline := by
  cases v with
  | list items => simp [Edit.onValue, Edit.pointwise, blankValue, Value.outline]
  | object members => simp [Edit.onValue, Edit.pointwise, blankValue, Value.outline]
  | _ => rfl

end Values

namespace Document

/-- A document of which literals are forgotten, and all that lists and input objects hold, and
aliases. -/
def outline (d : Document) : Document := d.map Value.outline fun _ => none

@[simp] theorem shape_shape (d : Document) : d.shape.shape = d.shape := by
  rw [shape, shape, map_map]
  congr 1
  exact funext Value.shape_shape

@[simp] theorem plain_shape (d : Document) : d.shape.plain = d.shape := by
  rw [shape, plain, map_map]
  congr 1
  exact funext Value.plain_shape

@[simp] theorem outline_shape (d : Document) : d.shape.outline = d.outline := by
  rw [shape, outline, map_map]
  congr 1
  exact funext Value.outline_shape

end Document

namespace Signature

theorem sort_shape (d : Document) : sort d.shape = (sort d).shape :=
  sort_map Value.sorted_shape d

theorem sort_outline (d : Document) : sort d.outline = (sort d).outline :=
  sort_map Value.sorted_outline d

/-- A canonical text does not tell integers from other numbers. -/
theorem canonicalText_map_asInt (d : Document) :
    canonicalText (d.map Value.asInt id) = canonicalText d := by
  rw [canonicalText, sort_map Value.sorted_asInt, Document.print_map_asInt]
  rfl

theorem redact_eq_map (d : Document) : redact d = d.map (Value.mapLeaves redactValue) id := by
  rw [← funext (Edit.onValue_pointwise redactValue id (fun _ => rfl) fun _ => rfl)]
  exact Edit.apply_pointwise redactValue id d

theorem hideLiterals_eq_map (d : Document) :
    hideLiterals d = d.map (Edit.pointwise blankValue id).onValue id :=
  Edit.apply_pointwise blankValue id d

/-- The canonical text of a redacted document says what its shape says. -/
theorem canonicalText_redact (d : Document) : canonicalText (redact d) = (sort d.shape).print := by
  rw [← canonicalText_map_asInt, redact_eq_map, Document.map_map]
  have hg : Value.asInt ∘ Value.mapLeaves redactValue = Value.shape :=
    funext Value.asInt_redacted
  rw [hg]
  rfl

theorem removeAliases_eq_map (d : Document) : removeAliases d = d.map id fun _ => none := by
  have hi : (Edit.pointwise id fun _ => none).onValue = id := by
    funext v
    rw [Edit.onValue_pointwise id _ (fun _ => rfl) fun _ => rfl, Value.mapLeaves_id, id]
  rw [← hi]
  exact Edit.apply_pointwise id (fun _ => none) d

/-- The text behind an engine signature says what the outline of a document says. -/
theorem canonicalText_removeAliases_hideLiterals (d : Document) :
    canonicalText (removeAliases (hideLiterals d)) = (sort d.outline).print := by
  rw [← canonicalText_map_asInt, removeAliases_eq_map, hideLiterals_eq_map, Document.map_map,
    Document.map_map]
  have hg : (Value.asInt ∘ id) ∘ (Edit.pointwise blankValue id).onValue = Value.outline :=
    funext Value.asInt_hidden
  rw [hg]
  rfl

end Signature

end Safelist
