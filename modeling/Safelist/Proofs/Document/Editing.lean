import Safelist.Proofs.Document.Map
import Safelist.Proofs.Document.WellFormed

/-!
# Edits that misspell nothing

When nothing that an edit does to a single part misspells it, the edit misspells
nothing in a whole document. Lists of arguments, directives, variables and
definitions are only ever reordered or shortened.
-/

namespace Safelist

open Lexical

/-- Nothing that an edit does to a single part misspells it. -/
structure Edit.Spells (e : Edit) : Prop where
  /-- A value stays one that can be written. -/
  value : ∀ {constant v}, v.WellSpelled constant → (e.value v).WellSpelled constant
  /-- No argument is added. -/
  arguments : ∀ as, e.arguments as ⊆ as
  /-- No directive is added. -/
  directives : ∀ ds, e.directives ds ⊆ ds
  /-- No variable is added. -/
  variableDefinitions : ∀ vs, e.variableDefinitions vs ⊆ vs
  /-- A field stays one that can be written. -/
  field : ∀ {f}, f.WellSpelled → (e.field f).WellSpelled
  /-- A selection that is kept stays one that can be written. -/
  selection : ∀ {s t}, s.WellSpelled → e.selection s = some t → t.WellSpelled
  /-- The selections of a set stay such that they can be written. -/
  selections : ∀ {set}, (∀ s ∈ set, s.WellSpelled) → ∀ s ∈ e.selections set, s.WellSpelled
  /-- The selections of a field stay such that they can be written. -/
  fieldSelections : ∀ {set}, (∀ s ∈ set, s.WellSpelled) →
    ∀ s ∈ e.fieldSelections set, s.WellSpelled
  /-- The selections of a fragment stay such that they can be written. -/
  fragmentSelections : ∀ {set}, (∀ s ∈ set, s.WellSpelled) →
    ∀ s ∈ e.fragmentSelections set, s.WellSpelled
  /-- No definition is added. -/
  definitions : ∀ ds, e.definitions ds ⊆ ds

namespace Edit

/-- The edit that changes nothing misspells nothing. -/
theorem spells_identity : identity.Spells where
  value h := h
  arguments as := List.Subset.refl as
  directives ds := List.Subset.refl ds
  variableDefinitions vs := List.Subset.refl vs
  field h := h
  selection hs ht := Option.some.inj ht ▸ hs
  selections h := h
  fieldSelections h := h
  fragmentSelections h := h
  definitions ds := List.Subset.refl ds

namespace Spells

variable {e : Edit} (he : e.Spells)
include he

theorem onValue {constant : Bool} {v : Value} (hv : v.WellSpelled constant) :
    (e.onValue v).WellSpelled constant := by
  induction v with
  | list items ih =>
    cases hv with
    | list h =>
      rw [Edit.onValue, onItems_eq_map]
      exact he.value (.list (List.forall_mem_map.2 fun v hm => ih v hm (h v hm)))
  | object members ih =>
    cases hv with
    | object hn h =>
      rw [Edit.onValue, onMembers_eq_map]
      exact he.value (.object (List.forall_mem_map.2 hn)
        (List.forall_mem_map.2 fun m hm => ih m hm (h m hm)))
  | _ => exact he.value hv

theorem onArguments {constant : Bool} {as : List Argument}
    (has : ∀ a ∈ as, a.WellSpelled constant) :
    ∀ a ∈ e.onArguments as, a.WellSpelled constant := by
  intro a ha
  obtain ⟨b, hb, rfl⟩ := List.mem_map.mp (he.arguments _ ha)
  exact ⟨(has b hb).name, he.onValue (has b hb).value⟩

theorem onDirectives {constant : Bool} {ds : List Directive}
    (hds : ∀ d ∈ ds, d.WellSpelled constant) :
    ∀ d ∈ e.onDirectives ds, d.WellSpelled constant := by
  intro d hd
  obtain ⟨b, hb, rfl⟩ := List.mem_map.mp (he.directives _ hd)
  exact ⟨(hds b hb).name, he.onArguments (hds b hb).arguments⟩

theorem onVariables {vs : List VariableDefinition} (hvs : ∀ v ∈ vs, v.WellSpelled) :
    ∀ v ∈ e.onVariables vs, v.WellSpelled := by
  intro v hv
  obtain ⟨b, hb, rfl⟩ := List.mem_map.mp (he.variableDefinitions _ hv)
  refine ⟨(hvs b hb).name, (hvs b hb).type, fun value hvalue => ?_,
    he.onDirectives (hvs b hb).directives⟩
  obtain ⟨w, hw, rfl⟩ := Option.map_eq_some_iff.mp hvalue
  exact he.onValue ((hvs b hb).defaultValue w hw)

theorem onField {f : Field} (hf : f.WellSpelled) : (e.onField f).WellSpelled :=
  he.field ⟨hf.aliasName, hf.name, he.onArguments hf.arguments, he.onDirectives hf.directives⟩

/-- What becomes of a selection can be written. -/
theorem onSelection {s : Selection} (hs : s.WellSpelled) :
    ∀ t, e.onSelection s = some t → t.WellSpelled := by
  have each : ∀ set : List Selection,
      (∀ s ∈ set, ∀ t, e.onSelection s = some t → t.WellSpelled) →
        ∀ t ∈ e.selections (e.onEach set), t.WellSpelled := by
    intro set h
    refine he.selections fun t ht => ?_
    rw [onEach_eq_filterMap] at ht
    obtain ⟨s, hm, hst⟩ := List.mem_filterMap.mp ht
    exact h s hm t hst
  induction s with
  | leaf f =>
    cases hs with
    | leaf hf => exact fun t => he.selection (.leaf (he.onField hf))
  | nested f set ih =>
    cases hs with
    | nested hf hset =>
      refine fun t => he.selection (.nested (he.onField hf) (he.fieldSelections ?_))
      exact each set fun s hm => ih s hm (hset s hm)
  | spread use =>
    cases hs with
    | spread h =>
      exact fun t => he.selection (.spread ⟨h.name, h.name_ne, he.onDirectives h.directives⟩)
  | inline head set ih =>
    cases hs with
    | inline hh hset =>
      refine fun t => he.selection
        (.inline ⟨hh.typeCondition, he.onDirectives hh.directives⟩ ?_)
      exact each set fun s hm => ih s hm (hset s hm)

theorem onSelections {set : List Selection} (hs : ∀ s ∈ set, s.WellSpelled) :
    ∀ t ∈ e.onSelections set, t.WellSpelled := by
  refine he.selections fun t ht => ?_
  rw [onEach_eq_filterMap] at ht
  obtain ⟨s, hm, hst⟩ := List.mem_filterMap.mp ht
  exact he.onSelection (hs s hm) t hst

theorem onDefinition {x : Definition} (hx : x.WellSpelled) : (e.onDefinition x).WellSpelled := by
  cases x with
  | operation op =>
    exact { name := hx.name
            variableDefinitions := he.onVariables hx.variableDefinitions
            directives := he.onDirectives hx.directives
            selections := he.onSelections hx.selections }
  | fragment f =>
    exact { name := hx.name
            name_ne := hx.name_ne
            typeCondition := hx.typeCondition
            directives := he.onDirectives hx.directives
            selections := he.fragmentSelections (he.onSelections hx.selections) }

/-- An edit that misspells no part misspells nothing in a document. -/
theorem apply {d : Document} (hd : ∀ x ∈ d.definitions, x.WellSpelled) :
    ∀ x ∈ (e.apply d).definitions, x.WellSpelled := by
  intro x hx
  obtain ⟨y, hy, rfl⟩ := List.mem_map.mp (he.definitions _ hx)
  exact he.onDefinition (hd y hy)

end Spells

end Edit

/-- Zero is an integer. -/
theorem isInt_zero : IsInt "0" :=
  ⟨⟨[], ['0'], [], [], .inl rfl, ⟨by simp, List.forall_mem_singleton.2 rfl⟩, fun _ => rfl,
    .inl rfl, .inl rfl⟩, rfl, rfl⟩

/-- Forgetting literals misspells nothing. -/
theorem Edit.spells_forgotten : (Edit.pointwise Value.forgotten id).Spells :=
  { spells_identity with
    value := fun h => by
      cases h with
      | int h => exact .int isInt_zero
      | float h => exact .int isInt_zero
      | string => exact .string "" false
      | var h hc => exact .var h hc
      | boolean b => exact .boolean b
      | null => exact .null
      | enum h hr => exact .enum h hr
      | list h => exact .list h
      | object hn h => exact .object hn h }

/-- The shape of a document that can be written can be written. -/
theorem Document.wellSpelled_shape {d : Document} (hd : ∀ x ∈ d.definitions, x.WellSpelled) :
    ∀ x ∈ d.shape.definitions, x.WellSpelled := by
  have hs : (Edit.pointwise Value.forgotten id).apply d = d.shape := by
    rw [Edit.apply_pointwise,
      funext (Edit.onValue_pointwise Value.forgotten id (fun _ => rfl) fun _ => rfl)]
    rfl
  rw [← hs]
  exact Edit.spells_forgotten.apply hd

end Safelist
