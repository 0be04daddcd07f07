import Safelist.Proofs.Document.Hooks

/-!
# Edits by hooks

An edit says what to do with each kind of part after the parts in it. That amounts to
overriding hooks such that each puts its part together again first and edits it then: the
hooks that are so described are those of the edit, and there are no others.
-/

namespace Safelist

/-- There is one table of hooks that fits a description, and this is the change that it makes in
documents. -/
def Hooks.AmountTo (described : Hooks → Hooks) (change : Document → Document) : Prop :=
  ∃ h : Hooks, h.document = change ∧ ∀ g : Hooks, g = described g ↔ g = h

namespace Edit

/-- What an edit makes of each kind of part. -/
def hooks (e : Edit) : Hooks where
  document := e.apply
  definitions ds := e.definitions (ds.map e.onDefinition)
  operation := e.onOperation
  fragment := e.onFragment
  variableDefinitions := e.onVariables
  selections := e.onSelections
  selection := e.onSelection
  -- The selection set of a field is edited twice, as any set and then as that of a field.
  field x := (e.onField x.1, x.2.map fun set => e.fieldSelections (e.onSelections set))
  spread := e.onSpread
  inline x := (e.onInlineHead x.1, e.onSelections x.2)
  arguments := e.onArguments
  directives := e.onDirectives
  value := e.onValue

/-- Each part put together again and edited then. -/
def described (e : Edit) (h : Hooks) : Hooks where
  document := h.rebuild.document
  definitions ds := e.definitions (h.rebuild.definitions ds)
  operation := h.rebuild.operation
  fragment f :=
    { h.rebuild.fragment f with
      selections := e.fragmentSelections (h.rebuild.fragment f).selections }
  variableDefinitions vs := e.variableDefinitions (h.rebuild.variableDefinitions vs)
  selections set := e.selections (h.rebuild.selections set)
  selection s := (h.rebuild.selection s).bind e.selection
  field x := (e.field (h.rebuild.field x).1, (h.rebuild.field x).2.map e.fieldSelections)
  spread := h.rebuild.spread
  inline := h.rebuild.inline
  arguments as := e.arguments (h.rebuild.arguments as)
  directives ds := e.directives (h.rebuild.directives ds)
  value v := e.value (h.rebuild.value v)

variable (e : Edit)

theorem isLocal_described : Hooks.IsLocal e.described := by
  intro h g p hp
  have hr := Hooks.isLocal_rebuild h g p hp
  cases p with
  | document d => exact hr
  | definitions ds => exact congrArg e.definitions hr
  | operation op => exact hr
  | fragment f =>
    exact congrArg (fun x => ({ x with
      selections := e.fragmentSelections x.selections } : Fragment)) hr
  | variableDefinitions vs => exact congrArg e.variableDefinitions hr
  | selections set => exact congrArg e.selections hr
  | selection s => exact congrArg (·.bind e.selection) hr
  | field x =>
    exact congrArg (fun y : WholeField => (e.field y.1, y.2.map e.fieldSelections)) hr
  | spread use => exact hr
  | inline x => exact hr
  | arguments as => exact congrArg e.arguments hr
  | directives ds => exact congrArg e.directives hr
  | value v => exact congrArg e.value hr

/-- What an edit makes of parts is what it is to make of them. -/
theorem hooks_eq_described : e.hooks = e.described e.hooks := by
  refine Hooks.eq_of_agreeOn fun p => ?_
  cases p with
  | document d => rfl
  | definitions ds =>
    have hx : e.onDefinition = e.hooks.definition := funext fun x => by cases x <;> rfl
    exact congrArg (fun f => e.definitions (ds.map f)) hx
  | operation op => rfl
  | fragment f => rfl
  | variableDefinitions vs => rfl
  | selections set => exact congrArg e.selections (onEach_eq_filterMap e set)
  | selection s => cases s <;> exact Edit.onSelection.eq_def ..
  | field x => cases x with
    | mk f set => cases set <;> rfl
  | spread use => rfl
  | inline x => rfl
  | arguments as => rfl
  | directives ds => rfl
  | value v =>
    cases v with
    | list items => exact congrArg (fun vs => e.value (.list vs)) (onItems_eq_map e items)
    | object members =>
      exact congrArg (fun ms => e.value (.object ms)) (onMembers_eq_map e members)
    | _ => rfl

theorem amountTo_described : Hooks.AmountTo e.described e.apply := by
  refine ⟨e.hooks, rfl, fun g => ⟨fun hg => ?_, fun hg => ?_⟩⟩
  · exact e.isLocal_described.unique hg e.hooks_eq_described
  · rw [hg]
    exact e.hooks_eq_described

/-- The edit that changes nothing only puts parts together again. -/
theorem described_identity : identity.described = Hooks.rebuild := by
  funext h
  refine Hooks.eq_of_agreeOn fun p => ?_
  cases p with
  | selection s => exact Option.bind_fun_some _
  | field x => exact Prod.ext rfl (congrFun Option.map_id _)
  | _ => rfl

theorem amountTo_rebuild : Hooks.AmountTo Hooks.rebuild identity.apply := by
  rw [← described_identity]
  exact amountTo_described identity

/-- The hooks of the edit that changes nothing are those that return every part as it is. -/
theorem hooks_identity : identity.hooks = Hooks.identity := by
  have hh := hooks_eq_described identity
  rw [described_identity] at hh
  exact Hooks.eq_rebuild_iff.mp hh

/-- The edit that changes nothing returns every document as it is. -/
theorem apply_identity (d : Document) : identity.apply d = d :=
  congrFun (congrArg Hooks.document hooks_identity) d

section OneHook

variable (h : Hooks)

/-- Hooks with that for values overridden are described by an edit of values alone. -/
theorem value_overridden {f g : Value → Value} (hg : ∀ v, g v = f (h.rebuild.value v)) :
    { h.rebuild with value := g } = described { value := f } h := by
  rw [funext hg, ← congrFun described_identity h]
  rfl

/-- Hooks with that for fields overridden are described by an edit of fields alone. -/
theorem field_overridden {f : Field → Field} {g : WholeField → WholeField}
    (hg : ∀ x, g x = (f (h.rebuild.field x).1, (h.rebuild.field x).2)) :
    { h.rebuild with field := g } = described { field := f } h := by
  rw [funext hg, ← congrFun described_identity h]
  rfl

/-- Hooks with that for directives overridden are described by an edit of directives alone. -/
theorem directives_overridden {f g : List Directive → List Directive}
    (hg : ∀ ds, g ds = f (h.rebuild.directives ds)) :
    { h.rebuild with directives := g } = described { directives := f } h := by
  rw [funext hg, ← congrFun described_identity h]
  rfl

end OneHook

end Edit

namespace Hooks

/-- Hooks so described put a part together again just when it is free of something, and return no
other part as it is. -/
structure Spares (described : Hooks → Hooks) (free : Part → Prop) : Prop where
  /-- What is free is only put together again, and what is not free is changed. -/
  agreeOn_iff : ∀ h p, (described h).AgreeOn h.rebuild p ↔ free p
  /-- What is not free does not come back as it is. -/
  free_of_leaves : ∀ h p, (described h).Leaves p → free p

variable {described : Hooks → Hooks} {change : Document → Document} {free : Part → Prop}

/-- A change that amounts to such hooks changes nothing just where all that stands in a document is
free. -/
theorem Spares.eq_self_iff (hs : Spares described free) (hc : AmountTo described change)
    (d : Document) : change d = d ↔ ∀ p, p.StandsIn (.document d) → free p := by
  obtain ⟨h, rfl, hall⟩ := hc
  have hh : h = described h := (hall h).mpr rfl
  have hrebuilds : ∀ p, h.Rebuilds p ↔ free p := fun p => by
    rw [Rebuilds, ← hs.agreeOn_iff h p, ← hh]
  have hfree : ∀ p, h.Leaves p → h.Rebuilds p := fun p hp => by
    rw [hh] at hp
    exact (hrebuilds p).mpr (hs.free_of_leaves h p hp)
  have hd : h.Leaves (.document d) ↔ ∀ p, p.StandsIn (.document d) → h.Rebuilds p :=
    leaves_iff hfree
  exact hd.trans (forall₂_congr fun p _ => hrebuilds p)

end Hooks

end Safelist
