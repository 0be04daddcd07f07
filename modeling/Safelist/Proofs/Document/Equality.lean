import Safelist.Proofs.Document.Parts

/-!
# Comparing documents

Two documents are compared part by part. A comparison finds that two trees are the
same exactly when they are equal, so equality of documents is decidable.
-/

namespace Safelist

deriving instance DecidableEq for TypeRef

namespace Value

mutual

/-- Whether two values are the same. -/
def same : Value → Value → Bool
  | .var name, .var name' => name = name'
  | .int text, .int text' => text = text'
  | .float text, .float text' => text = text'
  | .string value isBlock, .string value' isBlock' => value = value' && isBlock = isBlock'
  | .boolean value, .boolean value' => value = value'
  | .null, .null => true
  | .enum name, .enum name' => name = name'
  | .list items, .list items' => sameItems items items'
  | .object members, .object members' => sameMembers members members'
  | _, _ => false

/-- Whether two lists hold the same values. -/
def sameItems : List Value → List Value → Bool
  | [], [] => true
  | v :: rest, v' :: rest' => v.same v' && sameItems rest rest'
  | _, _ => false

/-- Whether two input objects hold the same values under the same names. -/
def sameMembers : List (String × Value) → List (String × Value) → Bool
  | [], [] => true
  | (name, v) :: rest, (name', v') :: rest' =>
    name = name' && (v.same v' && sameMembers rest rest')
  | _, _ => false

end

theorem sameItems_iff {items items' : List Value}
    (h : ∀ v ∈ items, ∀ v', v.same v' = true ↔ v = v') :
    sameItems items items' = true ↔ items = items' := by
  induction items generalizing items' with
  | nil => cases items' <;> simp [sameItems]
  | cons v rest ih =>
    obtain ⟨hv, hrest⟩ := List.forall_mem_cons.mp h
    cases items' with
    | nil => simp [sameItems]
    | cons v' rest' => rw [sameItems, Bool.and_eq_true, hv, ih hrest, List.cons.injEq]

theorem sameMembers_iff {members members' : List (String × Value)}
    (h : ∀ m ∈ members, ∀ v', m.2.same v' = true ↔ m.2 = v') :
    sameMembers members members' = true ↔ members = members' := by
  induction members generalizing members' with
  | nil => cases members' <;> simp [sameMembers]
  | cons m rest ih =>
    obtain ⟨hm, hrest⟩ := List.forall_mem_cons.mp h
    cases members' with
    | nil => simp [sameMembers]
    | cons m' rest' =>
      rw [sameMembers, Bool.and_eq_true, Bool.and_eq_true, decide_eq_true_eq, hm, ih hrest,
        List.cons.injEq, Prod.ext_iff, and_assoc]

/-- Values are the same when they are equal. -/
theorem same_iff {v v' : Value} : v.same v' = true ↔ v = v' := by
  induction v generalizing v' with
  | list items ih =>
    cases v' <;> simp [same, sameItems_iff fun v hv _ => ih v hv]
  | object members ih =>
    cases v' <;> simp [same, sameMembers_iff fun m hm _ => ih m hm]
  | _ => cases v' <;> simp [same]

instance : DecidableEq Value := fun _ _ => decidable_of_iff _ same_iff

end Value

deriving instance DecidableEq for Argument, Directive, VariableDefinition, Field, Spread,
  InlineHead

namespace Selection

mutual

/-- Whether two selections are the same. -/
def same : Selection → Selection → Bool
  | .leaf f, .leaf f' => f = f'
  | .nested f set, .nested f' set' => f = f' && sameSet set set'
  | .spread use, .spread use' => use = use'
  | .inline head set, .inline head' set' => head = head' && sameSet set set'
  | _, _ => false

/-- Whether two selection sets hold the same selections. -/
def sameSet : List Selection → List Selection → Bool
  | [], [] => true
  | s :: rest, s' :: rest' => s.same s' && sameSet rest rest'
  | _, _ => false

end

theorem sameSet_iff {set set' : List Selection}
    (h : ∀ s ∈ set, ∀ s', s.same s' = true ↔ s = s') : sameSet set set' = true ↔ set = set' := by
  induction set generalizing set' with
  | nil => cases set' <;> simp [sameSet]
  | cons s rest ih =>
    obtain ⟨hs, hrest⟩ := List.forall_mem_cons.mp h
    cases set' with
    | nil => simp [sameSet]
    | cons s' rest' => rw [sameSet, Bool.and_eq_true, hs, ih hrest, List.cons.injEq]

/-- Selections are the same when they are equal. -/
theorem same_iff {s s' : Selection} : s.same s' = true ↔ s = s' := by
  induction s generalizing s' with
  | leaf f => cases s' <;> simp [same]
  | nested f set ih =>
    cases s' <;> simp [same, sameSet_iff fun s hs _ => ih s hs]
  | spread use => cases s' <;> simp [same]
  | inline head set ih =>
    cases s' <;> simp [same, sameSet_iff fun s hs _ => ih s hs]

instance : DecidableEq Selection := fun _ _ => decidable_of_iff _ same_iff

end Selection

deriving instance DecidableEq for Operation, Fragment, Definition, Document

end Safelist
