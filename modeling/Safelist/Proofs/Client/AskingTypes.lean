import Mathlib.Data.List.Forall2
import Safelist.Client.Typename
import Safelist.Proofs.Document.Addresses
import Safelist.Proofs.Document.Heads
import Safelist.Proofs.Document.Reordering

/-!
# Types are asked for where they were missing

A document is completed when the selection set of every field and of every fragment
with a name asks for its type, at any depth. Where a set did so before, nothing comes
in front of it; where it did not, the one field that asks comes there; and all else,
the roots of operations and inline fragments among it, is as it was. There is one way
to complete a document, and a completed one is complete.
-/

namespace Safelist

open Client

/-- A selection set has the field that answers the type, under its own name. What else the field
bears does not matter. -/
def AsksType (set : List Selection) : Prop :=
  ∃ f : Field, f.name = "__typename" ∧ f.aliasName = none ∧
    (.leaf f ∈ set ∨ ∃ inner, .nested f inner ∈ set)

/-- What becomes of a selection set that is to ask for its type, given what becomes of its
selections: the bare field comes in front of them, unless the set asked before. -/
def CompletedFront (set mid set' : List Selection) : Prop :=
  AsksType set ∧ set' = mid ∨
    ¬AsksType set ∧ set' = .leaf ⟨none, "__typename", [], []⟩ :: mid

/-- A selection with the selection sets of fields in it completed. -/
inductive Selection.Completed : Selection → Selection → Prop
  /-- A field without a selection set stays. -/
  | leaf (f : Field) : Selection.Completed (.leaf f) (.leaf f)
  /-- The selections of a field are completed, and their set is. -/
  | nested (f : Field) {set mid set' : List Selection}
    (each : List.Forall₂ Selection.Completed set mid) (h : CompletedFront set mid set') :
    Selection.Completed (.nested f set) (.nested f set')
  /-- The use of a fragment stays. -/
  | spread (use : Spread) : Selection.Completed (.spread use) (.spread use)
  /-- The selections of an inline fragment are completed, but nothing comes in front of them. -/
  | inline (head : InlineHead) {set set' : List Selection}
    (each : List.Forall₂ Selection.Completed set set') :
    Selection.Completed (.inline head set) (.inline head set')

/-- An operation with the selections of its root completed. Nothing comes in front of them. -/
structure Operation.Completed (op op' : Operation) : Prop where
  /-- Nothing but the selections changes. -/
  eq : op' = { op with selections := op'.selections }
  /-- The selections are completed. -/
  selections : List.Forall₂ Selection.Completed op.selections op'.selections

/-- A fragment with its selections completed, and their set. -/
structure Fragment.Completed (f f' : Fragment) : Prop where
  /-- Nothing but the selections changes. -/
  eq : f' = { f with selections := f'.selections }
  /-- The selections are completed, and their set is. -/
  selections : ∃ mid, List.Forall₂ Selection.Completed f.selections mid ∧
    CompletedFront f.selections mid f'.selections

/-- A definition with what it selects completed. -/
def Definition.Completed : Definition → Definition → Prop
  | .operation op, .operation op' => op.Completed op'
  | .fragment f, .fragment f' => f.Completed f'
  | _, _ => False

/-- A document with all that it selects completed. The definitions stay where they are. -/
def Document.Completed (d d' : Document) : Prop :=
  List.Forall₂ Definition.Completed d.definitions d'.definitions

variable {s t t' : Selection} {set mid set' : List Selection}

theorem asksType_iff : AsksType set ↔ set.any isTypename = true := by
  rw [List.any_eq_true]
  constructor
  · rintro ⟨f, hname, halias, hf | ⟨inner, hf⟩⟩
    · exact ⟨_, hf, by simp [isTypename, hname, halias, typename]⟩
    · exact ⟨_, hf, by simp [isTypename, hname, halias, typename]⟩
  · rintro ⟨s, hs, h⟩
    cases s with
    | leaf f =>
      have hf : f.name = "__typename" ∧ f.aliasName = none := by
        simpa [isTypename, typename] using h
      exact ⟨f, hf.1, hf.2, .inl hs⟩
    | nested f inner =>
      have hf : f.name = "__typename" ∧ f.aliasName = none := by
        simpa [isTypename, typename] using h
      exact ⟨f, hf.1, hf.2, .inr ⟨inner, hs⟩⟩
    | spread use => cases h
    | inline head inner => cases h

/-- Completing a selection keeps its name and alias, if it has any. -/
theorem Selection.Completed.isTypename_eq (h : s.Completed t) : isTypename t = isTypename s := by
  cases h <;> rfl

/-- Completed selections ask for a type where they did before. -/
theorem asksType_congr (each : List.Forall₂ Selection.Completed set mid) :
    AsksType mid ↔ AsksType set := by
  rw [asksType_iff, asksType_iff]
  induction each with
  | nil => rfl
  | cons h _ ih => rw [List.any_cons, List.any_cons, h.isTypename_eq, Bool.or_eq_true,
      Bool.or_eq_true, ih]

/-- A completed selection set asks for its type. -/
theorem CompletedFront.asksType (each : List.Forall₂ Selection.Completed set mid)
    (h : CompletedFront set mid set') : AsksType set' := by
  rcases h with ⟨hset, rfl⟩ | ⟨-, rfl⟩
  · exact (asksType_congr each).mpr hset
  · exact ⟨⟨none, "__typename", [], []⟩, rfl, rfl, .inl List.mem_cons_self⟩

/-- Where selections have been completed, the edit of their set completes it. -/
theorem completedFront_withTypename (each : List.Forall₂ Selection.Completed set mid) :
    CompletedFront set mid (withTypename mid) := by
  unfold withTypename
  split
  · rename_i h
    exact .inl ⟨(asksType_congr each).mp (asksType_iff.mpr h), rfl⟩
  · rename_i h
    exact .inr ⟨fun hset => h (asksType_iff.mp ((asksType_congr each).mpr hset)), rfl⟩

section Unique

/-- Selections that have been completed one by one in one way only. -/
theorem eq_of_forall₂_completed (hs : ∀ s ∈ set, ∀ t t', s.Completed t → s.Completed t' → t = t')
    (each : List.Forall₂ Selection.Completed set mid)
    (each' : List.Forall₂ Selection.Completed set set') : mid = set' := by
  induction each generalizing set' with
  | nil =>
    cases each'
    rfl
  | cons h _ ih =>
    obtain ⟨hfirst, hrest⟩ := List.forall_mem_cons.mp hs
    cases each' with
    | cons h' each' => rw [hfirst _ _ h h', ih hrest each']

theorem CompletedFront.unique {set'' : List Selection} (h : CompletedFront set mid set')
    (h' : CompletedFront set mid set'') : set' = set'' := by
  rcases h with ⟨hset, rfl⟩ | ⟨hset, rfl⟩ <;> rcases h' with ⟨hset', rfl⟩ | ⟨hset', rfl⟩
  · rfl
  · exact absurd hset hset'
  · exact absurd hset' hset
  · rfl

/-- A selection is completed in one way only. -/
theorem Selection.Completed.unique : ∀ t t', s.Completed t → s.Completed t' → t = t' := by
  induction s with
  | leaf f =>
    rintro t t' ⟨⟩ ⟨⟩
    rfl
  | nested f set ih =>
    rintro t t' h h'
    cases h with
    | nested _ each h =>
      cases h' with
      | nested _ each' h' =>
        obtain rfl := eq_of_forall₂_completed ih each each'
        rw [h.unique h']
  | spread use =>
    rintro t t' ⟨⟩ ⟨⟩
    rfl
  | inline head set ih =>
    rintro t t' h h'
    cases h with
    | inline _ each =>
      cases h' with
      | inline _ each' => rw [eq_of_forall₂_completed ih each each']

end Unique

section Complete

/-- Where completing a selection again changes nothing, completing those of a set again changes
nothing. -/
theorem forall₂_completed_of (h : ∀ s ∈ set, ∀ t, s.Completed t → t.Completed t)
    (each : List.Forall₂ Selection.Completed set mid) :
    List.Forall₂ Selection.Completed mid mid := by
  refine List.forall₂_same.mpr fun t ht => ?_
  obtain ⟨s, hs, hst⟩ := exists_mem_of_forall₂ each t ht
  exact h s hs t hst

/-- A completed selection set is complete. -/
theorem CompletedFront.self (each : List.Forall₂ Selection.Completed set mid)
    (h : CompletedFront set mid set') (hmid : List.Forall₂ Selection.Completed mid mid) :
    List.Forall₂ Selection.Completed set' set' ∧ CompletedFront set' set' set' := by
  refine ⟨?_, .inl ⟨h.asksType each, rfl⟩⟩
  rcases h with ⟨-, rfl⟩ | ⟨-, rfl⟩
  · exact hmid
  · exact .cons (.leaf _) hmid

/-- A completed selection is complete. -/
theorem Selection.Completed.self : ∀ t, s.Completed t → t.Completed t := by
  induction s with
  | leaf f =>
    rintro t ⟨⟩
    exact .leaf f
  | nested f set ih =>
    intro t h
    cases h with
    | nested _ each h =>
      obtain ⟨hset, hfront⟩ := h.self each (forall₂_completed_of ih each)
      exact .nested f hset hfront
  | spread use =>
    rintro t ⟨⟩
    exact .spread use
  | inline head set ih =>
    intro t h
    cases h with
    | inline _ each => exact .inline head (forall₂_completed_of ih each)

/-- The selection set of a field asks for its type. Of any other selection nothing is said. -/
def Selection.AsksBelow (s : Selection) : Prop := ∀ f set, s = .nested f set → AsksType set

/-- What holds everywhere in the sets of single selections holds everywhere in their set. -/
theorem everywhere_of_singletons {P : Selection → Prop} (h : ∀ s ∈ set, Everywhere P [s]) :
    Everywhere P set := by
  refine everywhere_iff.mpr fun s hs => ?_
  exact everywhere_iff.mp (h s hs) s List.mem_cons_self

/-- Everywhere in completed selections, the selection sets of fields ask for their types. -/
theorem everywhere_asksBelow
    (h : ∀ s ∈ set, ∀ t, s.Completed t → Everywhere Selection.AsksBelow [t])
    (each : List.Forall₂ Selection.Completed set mid) : Everywhere Selection.AsksBelow mid := by
  refine everywhere_of_singletons fun t ht => ?_
  obtain ⟨s, hs, hst⟩ := exists_mem_of_forall₂ each t ht
  exact h s hs t hst

/-- So they do in a completed selection. -/
theorem Selection.Completed.asks : ∀ t, s.Completed t → Everywhere Selection.AsksBelow [t] := by
  induction s with
  | leaf f =>
    rintro t ⟨⟩
    simp [Selection.AsksBelow, everywhere_nil]
  | nested f set ih =>
    intro t h
    cases h with
    | nested _ each h =>
      have hset := h.asksType each
      have hbelow := everywhere_asksBelow ih each
      rcases h with ⟨-, rfl⟩ | ⟨-, rfl⟩ <;>
        simp_all [Selection.AsksBelow, everywhere_nil]
  | spread use =>
    rintro t ⟨⟩
    simp [Selection.AsksBelow, everywhere_nil]
  | inline head set ih =>
    intro t h
    cases h with
    | inline _ each =>
      have hbelow := everywhere_asksBelow ih each
      simp_all [Selection.AsksBelow, everywhere_nil]

end Complete

namespace Client

/-- Type names are the only thing that this edit deals with. -/
theorem keepsHeads_askingTypes : askingTypes.KeepsHeads := ⟨rfl, rfl, rfl, rfl, rfl⟩

/-- Each selection of a set is completed, if the edit completes it. -/
theorem completed_onEach (h : ∀ s ∈ set, ∃ t, askingTypes.onSelection s = some t ∧ s.Completed t) :
    List.Forall₂ Selection.Completed set (askingTypes.onEach set) := by
  induction set with
  | nil => exact .nil
  | cons s rest ih =>
    obtain ⟨⟨t, ht, hst⟩, hrest⟩ := List.forall_mem_cons.mp h
    rw [Edit.onEach, ht]
    exact .cons hst (ih hrest)

/-- The edit completes every selection. -/
theorem completed_onSelection (s : Selection) :
    ∃ t, askingTypes.onSelection s = some t ∧ s.Completed t := by
  induction s with
  | leaf f =>
    rw [Edit.onSelection, keepsHeads_askingTypes.onField_eq]
    exact ⟨_, rfl, .leaf f⟩
  | nested f set ih =>
    have each := completed_onEach ih
    rw [Edit.onSelection, keepsHeads_askingTypes.onField_eq]
    exact ⟨_, rfl, .nested f each (completedFront_withTypename each)⟩
  | spread use =>
    rw [Edit.onSelection, keepsHeads_askingTypes.onSpread_eq]
    exact ⟨_, rfl, .spread use⟩
  | inline head set ih =>
    rw [Edit.onSelection, keepsHeads_askingTypes.onInlineHead_eq]
    exact ⟨_, rfl, .inline head (completed_onEach ih)⟩

theorem completed_onSelections (set : List Selection) :
    List.Forall₂ Selection.Completed set (askingTypes.onSelections set) :=
  completed_onEach fun s _ => completed_onSelection s

theorem completed_onDefinition (x : Definition) : x.Completed (askingTypes.onDefinition x) := by
  cases x with
  | operation op =>
    rw [Edit.onDefinition, keepsHeads_askingTypes.onOperation_eq]
    exact ⟨rfl, completed_onSelections op.selections⟩
  | fragment f =>
    have each := completed_onSelections f.selections
    rw [Edit.onDefinition, keepsHeads_askingTypes.onFragment_eq]
    exact ⟨rfl, _, each, completedFront_withTypename each⟩

/-- Asking for types completes a document. -/
theorem completed_addTypename (d : Document) : d.Completed (addTypename d) :=
  List.forall₂_map_right_iff.mpr
    (List.forall₂_same.mpr fun x _ => completed_onDefinition x)

end Client

/-- A definition is completed in one way only. -/
theorem Definition.Completed.unique {x y y' : Definition} (h : x.Completed y)
    (h' : x.Completed y') : y = y' := by
  have hsets : ∀ {set mid mid' : List Selection}, List.Forall₂ Selection.Completed set mid →
      List.Forall₂ Selection.Completed set mid' → mid = mid' :=
    eq_of_forall₂_completed fun s _ => Selection.Completed.unique
  cases x with
  | operation op =>
    cases y with
    | fragment g => exact h.elim
    | operation op₁ =>
      cases y' with
      | fragment g => exact h'.elim
      | operation op₂ => rw [h.eq, h'.eq, hsets h.selections h'.selections]
  | fragment f =>
    cases y with
    | operation op => exact h.elim
    | fragment f₁ =>
      cases y' with
      | operation op => exact h'.elim
      | fragment f₂ =>
        obtain ⟨mid, each, hfront⟩ := h.selections
        obtain ⟨mid', each', hfront'⟩ := h'.selections
        obtain rfl := hsets each each'
        rw [h.eq, h'.eq, hfront.unique hfront']

/-- A completed definition is complete. -/
theorem Definition.Completed.self {x y : Definition} (h : x.Completed y) : y.Completed y := by
  cases x with
  | operation op =>
    cases y with
    | fragment g => exact h.elim
    | operation op' =>
      exact ⟨rfl, forall₂_completed_of (fun s _ => Selection.Completed.self) h.selections⟩
  | fragment f =>
    cases y with
    | operation op => exact h.elim
    | fragment f' =>
      obtain ⟨mid, each, hfront⟩ := h.selections
      have hmid := forall₂_completed_of (fun s _ => Selection.Completed.self) each
      obtain ⟨hset, hself⟩ := hfront.self each hmid
      exact ⟨rfl, _, hset, hself⟩

/-- In a completed definition the selection sets of fields ask for their types, and so does the set
of a fragment. -/
theorem Definition.Completed.asks {x y : Definition} (h : x.Completed y) :
    Everywhere Selection.AsksBelow y.selections ∧
      ∀ f, y = .fragment f → AsksType f.selections := by
  cases x with
  | operation op =>
    cases y with
    | fragment g => exact h.elim
    | operation op' =>
      exact ⟨everywhere_asksBelow (fun s _ => Selection.Completed.asks) h.selections, by simp⟩
  | fragment f =>
    cases y with
    | operation op => exact h.elim
    | fragment f' =>
      obtain ⟨mid, each, hfront⟩ := h.selections
      have hset := hfront.asksType each
      have hbelow := everywhere_asksBelow (fun s _ => Selection.Completed.asks) each
      refine ⟨?_, by simpa using hset⟩
      rw [Definition.selections]
      rcases hfront with ⟨-, hf⟩ | ⟨-, hf⟩ <;> rw [hf]
      · exact hbelow
      · simpa [Selection.AsksBelow] using hbelow

/-- A document is completed in one way only. -/
theorem Document.Completed.unique {d d' d'' : Document} (h : d.Completed d')
    (h' : d.Completed d'') : d' = d'' := by
  have hunique : Relator.RightUnique Definition.Completed :=
    fun _ _ _ => Definition.Completed.unique
  have hdefinitions : d'.definitions = d''.definitions := List.right_unique_forall₂' hunique h h'
  cases d'
  cases d''
  exact congrArg Document.mk hdefinitions

namespace Client

/-- Adding type names completes a document: the selection set of every field, at any depth, and that
of every fragment asks for its type; where it did not before, the bare field stands in front, and
nothing else has changed; and adding them again changes nothing. -/
theorem addTypename_completes (d : Document) :
    (∀ x ∈ (addTypename d).definitions, Everywhere Selection.AsksBelow x.selections ∧
      ∀ f, x = .fragment f → AsksType f.selections) ∧
    (∀ d', d.Completed d' ↔ d' = addTypename d) ∧
    addTypename (addTypename d) = addTypename d := by
  have hd := completed_addTypename d
  refine ⟨fun y hy => ?_, fun d' => ⟨fun h => h.unique hd, fun h => h ▸ hd⟩, ?_⟩
  · obtain ⟨x, -, hxy⟩ := exists_mem_of_forall₂ hd y hy
    exact hxy.asks
  · have hself : (addTypename d).Completed (addTypename d) := by
      refine List.forall₂_same.mpr fun y hy => ?_
      obtain ⟨x, -, hxy⟩ := exists_mem_of_forall₂ hd y hy
      exact hxy.self
    exact (completed_addTypename (addTypename d)).unique hself

end Client

end Safelist
