import Mathlib.Data.List.Basic
import Safelist.Client.Erasure
import Safelist.Proofs.Document.Heads

/-!
# Rounds of erasure

Erasure goes over a document in rounds, and each round is a pass over what the
round before it has left. A pass looks at the heads of selections and at whether
anything is left below them, so two passes are one pass for the sake of either
condition, and what is left after a round is one pass over the document as it was.
-/

namespace Safelist.Client

section Passes

/-- A condition on selections does not look at what is below them. -/
structure LooksAtHeads (unwanted : Selection → Bool) : Prop where
  /-- All fields with one head are alike. -/
  nested : ∀ f set set', unwanted (.nested f set) = unwanted (.nested f set')
  /-- All inline fragments with one head are alike. -/
  inline : ∀ head set set', unwanted (.inline head set) = unwanted (.inline head set')

theorem looksAtHeads_isClientField (names : List String) : LooksAtHeads (isClientField names) :=
  ⟨fun _ _ _ => rfl, fun _ _ _ => rfl⟩

theorem looksAtHeads_isUse (names : List String) : LooksAtHeads (isUse names) :=
  ⟨fun _ _ _ => rfl, fun _ _ _ => rfl⟩

theorem LooksAtHeads.or {u u' : Selection → Bool} (hu : LooksAtHeads u) (hu' : LooksAtHeads u') :
    LooksAtHeads fun s => u s || u' s :=
  ⟨fun f set set' => congrArg₂ Bool.or (hu.nested f set set') (hu'.nested f set set'),
    fun head set set' => congrArg₂ Bool.or (hu.inline head set set') (hu'.inline head set set')⟩

theorem dropping_definitions (unwanted : Selection → Bool) : (dropping unwanted).definitions = id :=
  rfl

theorem keepsHeads_dropping (unwanted : Selection → Bool) : (dropping unwanted).KeepsHeads :=
  ⟨rfl, rfl, rfl, rfl, rfl⟩

variable {u u' : Selection → Bool}

theorem onSelection_dropping_leaf (u : Selection → Bool) (f : Field) :
    (dropping u).onSelection (.leaf f) = if u (.leaf f) then none else some (.leaf f) := by
  rw [Edit.onSelection, (keepsHeads_dropping u).onField_eq]
  simp [dropping, isEmptied]

theorem onSelection_dropping_spread (u : Selection → Bool) (s : Spread) :
    (dropping u).onSelection (.spread s) = if u (.spread s) then none else some (.spread s) := by
  rw [Edit.onSelection, (keepsHeads_dropping u).onSpread_eq]
  simp [dropping, isEmptied]

/-- A selection with a set is dropped for its head or for the lack of anything below it. -/
theorem LooksAtHeads.onSelection_nested (hu : LooksAtHeads u) (f : Field) (set : List Selection) :
    (dropping u).onSelection (.nested f set) =
      if u (.nested f set) || ((dropping u).onEach set).isEmpty then none
      else some (.nested f ((dropping u).onEach set)) := by
  rw [Edit.onSelection, (keepsHeads_dropping u).onField_eq, hu.nested f set]
  rfl

theorem LooksAtHeads.onSelection_inline (hu : LooksAtHeads u) (head : InlineHead)
    (set : List Selection) :
    (dropping u).onSelection (.inline head set) =
      if u (.inline head set) || ((dropping u).onEach set).isEmpty then none
      else some (.inline head ((dropping u).onEach set)) := by
  rw [Edit.onSelection, (keepsHeads_dropping u).onInlineHead_eq, hu.inline head set]
  rfl

/-- A selection with a set is dropped when it is unwanted or all that is in the set is dropped. -/
theorem LooksAtHeads.onSelection_nested_eq_none_iff (hu : LooksAtHeads u)
    {f : Field} {set : List Selection} :
    (dropping u).onSelection (.nested f set) = none ↔
      u (.nested f set) = true ∨ ∀ s ∈ set, (dropping u).onSelection s = none := by
  rw [hu.onSelection_nested, Edit.onEach_eq_filterMap, ← List.filterMap_eq_nil_iff]
  cases u (.nested f set) <;> simp

theorem LooksAtHeads.onSelection_inline_eq_none_iff (hu : LooksAtHeads u)
    {head : InlineHead} {set : List Selection} :
    (dropping u).onSelection (.inline head set) = none ↔
      u (.inline head set) = true ∨ ∀ s ∈ set, (dropping u).onSelection s = none := by
  rw [hu.onSelection_inline, Edit.onEach_eq_filterMap, ← List.filterMap_eq_nil_iff]
  cases u (.inline head set) <;> simp

/-- Two passes over a set are one pass, if they are so over each selection in it. -/
theorem onEach_dropping_onEach {set : List Selection}
    (h : ∀ s ∈ set, ((dropping u).onSelection s).bind (dropping u').onSelection =
      (dropping fun s => u s || u' s).onSelection s) :
    (dropping u').onEach ((dropping u).onEach set) = (dropping fun s => u s || u' s).onEach set := by
  rw [Edit.onEach_eq_filterMap, Edit.onEach_eq_filterMap, Edit.onEach_eq_filterMap,
    List.filterMap_filterMap]
  exact List.filterMap_congr h

/-- Two passes over a selection are one pass. -/
theorem onSelection_dropping_bind (hu : LooksAtHeads u) (hu' : LooksAtHeads u') (s : Selection) :
    ((dropping u).onSelection s).bind (dropping u').onSelection =
      (dropping fun s => u s || u' s).onSelection s := by
  induction s with
  | leaf f =>
    rw [onSelection_dropping_leaf, onSelection_dropping_leaf]
    cases hf : u (.leaf f) <;> simp [onSelection_dropping_leaf]
  | nested f set ih =>
    have hset := onEach_dropping_onEach ih
    rw [hu.onSelection_nested, (hu.or hu').onSelection_nested, ← hset]
    cases hf : u (.nested f set) with
    | true => simp
    | false =>
      cases he : (dropping u).onEach set with
      | nil => simp [Edit.onEach]
      | cons t rest => simp [hu'.onSelection_nested, hu'.nested f _ set]
  | spread s =>
    rw [onSelection_dropping_spread, onSelection_dropping_spread]
    cases hf : u (.spread s) <;> simp [onSelection_dropping_spread]
  | inline head set ih =>
    have hset := onEach_dropping_onEach ih
    rw [hu.onSelection_inline, (hu.or hu').onSelection_inline, ← hset]
    cases hf : u (.inline head set) with
    | true => simp
    | false =>
      cases he : (dropping u).onEach set with
      | nil => simp [Edit.onEach]
      | cons t rest => simp [hu'.onSelection_inline, hu'.inline head _ set]

/-- Two passes over a definition are one pass. -/
theorem onDefinition_dropping_onDefinition (hu : LooksAtHeads u) (hu' : LooksAtHeads u')
    (x : Definition) :
    (dropping u').onDefinition ((dropping u).onDefinition x) =
      (dropping fun s => u s || u' s).onDefinition x := by
  have hset : ∀ set : List Selection,
      (dropping u').onSelections ((dropping u).onSelections set) =
        (dropping fun s => u s || u' s).onSelections set :=
    fun set => onEach_dropping_onEach fun s _ => onSelection_dropping_bind hu hu' s
  cases x with
  | operation op =>
    simp only [Edit.onDefinition, (keepsHeads_dropping _).onOperation_eq, hset]
  | fragment f =>
    simp only [Edit.onDefinition, (keepsHeads_dropping _).onFragment_eq, ← hset]
    rfl

end Passes

section Rounds

variable (names : List String) (d : Document)

/-- Whether a selection is a field with a directive of some names or the use of a fragment that is
gone. -/
def isUnwanted (gone : List String) (s : Selection) : Bool := isClientField names s || isUse gone s

/-- A document after one pass over it without such selections, where the fragments that are gone
are left out. -/
def withoutGone (gone : List String) : Document :=
  (dropping (isUnwanted names gone)).apply
    ⟨d.definitions.filter fun x => !isFragmentOf gone x⟩

theorem looksAtHeads_isUnwanted (gone : List String) : LooksAtHeads (isUnwanted names gone) :=
  (looksAtHeads_isClientField names).or (looksAtHeads_isUse gone)

variable {names d}

theorem isUse_append (gone more : List String) (s : Selection) :
    isUse (gone ++ more) s = (isUse gone s || isUse more s) := by
  cases s <;> simp [isUse]

theorem isFragmentOf_append (gone more : List String) (x : Definition) :
    isFragmentOf (gone ++ more) x = (isFragmentOf gone x || isFragmentOf more x) := by
  cases x <;> simp [isFragmentOf]

/-- The first pass drops no fragments. -/
theorem apply_dropping_isClientField :
    (dropping (isClientField names)).apply d = withoutGone names d [] := by
  have hu : isUnwanted names [] = isClientField names := by
    funext s
    cases s <;> simp [isUnwanted, isUse]
  have hf : d.definitions.filter (fun x => !isFragmentOf [] x) = d.definitions :=
    List.filter_eq_self.mpr fun x _ => by cases x <;> rfl
  rw [withoutGone, hu, hf]

/-- A round over what is left is a pass over the document as it was, with more fragments gone. -/
theorem dropFragments_withoutGone (gone more : List String) :
    dropFragments more (withoutGone names d gone) = withoutGone names d (gone ++ more) := by
  have hu : isUnwanted names (gone ++ more) = fun s => isUnwanted names gone s || isUse more s := by
    funext s
    simp [isUnwanted, isUse_append, Bool.or_assoc]
  have hx : ∀ x, isFragmentOf more ((dropping (isUnwanted names gone)).onDefinition x) =
      isFragmentOf more x := fun x => by cases x <;> rfl
  have hpass : ∀ x, (dropping (isUse more)).onDefinition
      ((dropping (isUnwanted names gone)).onDefinition x) =
        (dropping (isUnwanted names (gone ++ more))).onDefinition x := fun x => by
    rw [hu, onDefinition_dropping_onDefinition (looksAtHeads_isUnwanted names gone)
      (looksAtHeads_isUse more)]
  simp [dropFragments, withoutGone, Edit.apply, dropping_definitions, List.filter_map,
    Function.comp_def, hx, hpass, isFragmentOf_append, Bool.and_comm]

/-- Leaving fragments out leaves the operations. -/
theorem operations_filter_isFragmentOf (gone : List String) :
    Document.operations ⟨d.definitions.filter fun x => !isFragmentOf gone x⟩ = d.operations := by
  rw [Document.operations, Document.operations, List.filterMap_filter]
  exact List.filterMap_congr fun x _ => by cases x <;> simp [isFragmentOf, Definition.operation?]

theorem fragments_filter_isFragmentOf (gone : List String) :
    Document.fragments ⟨d.definitions.filter fun x => !isFragmentOf gone x⟩ =
      d.fragments.filter fun f => !gone.contains f.name := by
  rw [Document.fragments, Document.fragments, List.filterMap_filter, List.filter_filterMap]
  refine List.filterMap_congr fun x _ => ?_
  cases x with
  | operation op => simp [isFragmentOf, Definition.fragment?]
  | fragment f => simp [isFragmentOf, Definition.fragment?, Option.filter_some]

/-- The fragments that are empty after a pass are those that are not gone and of whose selections
every one is dropped. -/
theorem mem_emptyFragments_withoutGone {gone : List String} {name : String} :
    name ∈ emptyFragments (withoutGone names d gone) ↔
      name ∉ gone ∧ ∃ f ∈ d.fragments, f.name = name ∧
        ∀ s ∈ f.selections, (dropping (isUnwanted names gone)).onSelection s = none := by
  have hset : ∀ f : Fragment,
      ((dropping (isUnwanted names gone)).onFragment f).selections = [] ↔
        ∀ s ∈ f.selections, (dropping (isUnwanted names gone)).onSelection s = none := by
    intro f
    rw [(keepsHeads_dropping _).onFragment_eq, ← List.filterMap_eq_nil_iff,
      ← Edit.onEach_eq_filterMap]
    rfl
  simp only [emptyFragments, withoutGone, Document.fragments_apply (dropping_definitions _),
    fragments_filter_isFragmentOf, List.mem_map, List.mem_filter, List.isEmpty_iff,
    Bool.not_eq_true', List.contains_eq_mem, decide_eq_false_iff_not]
  constructor
  · rintro ⟨_, ⟨⟨f, ⟨hf, hgone⟩, rfl⟩, hempty⟩, rfl⟩
    exact ⟨hgone, f, hf, rfl, (hset f).mp hempty⟩
  · rintro ⟨hgone, f, hf, rfl, hall⟩
    exact ⟨_, ⟨⟨f, ⟨hf, hgone⟩, rfl⟩, (hset f).mpr hall⟩, rfl⟩

end Rounds

end Safelist.Client
