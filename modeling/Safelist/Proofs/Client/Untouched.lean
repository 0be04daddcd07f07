import Safelist.Client.Annotation
import Safelist.Proofs.Document.Overriding
import Safelist.Signature.Engine

/-!
# What edits leave alone

Four edits override one hook each: for values, where literals are redacted or all that is
written out is hidden; for fields, where aliases are removed; and for directives, where some
are stripped. Each of them returns a document as it is just when none of what it is after
stands anywhere in the document.
-/

namespace Safelist

open Signature Client

/-- A literal in a value is in its fixed form. Nothing is said of values of other kinds. -/
def Value.IsRedacted : Value → Prop
  | .int text => text = "0"
  | .float text => text = "0"
  | .string value isBlock => value = "" ∧ isBlock = false
  | _ => True

/-- A list or an input object is empty. Nothing is said of values of other kinds. -/
def Value.IsHollow : Value → Prop
  | .list items => items = []
  | .object members => members = []
  | _ => True

namespace Hooks

/-- Hooks of which the one for values puts literals into their fixed form. -/
def redacting (h : Hooks) : Hooks :=
  { h.rebuild with
    value := fun
      | .int _ => .int "0"
      | .float _ => .float "0"
      | .string _ _ => .string "" false
      | v => h.rebuild.value v }

/-- Hooks of which the one for values puts literals into their fixed form, and empties lists and
input objects without a look at what is in them. -/
def blanking (h : Hooks) : Hooks :=
  { h.rebuild with
    value := fun
      | .int _ => .int "0"
      | .float _ => .float "0"
      | .string _ _ => .string "" false
      | .list _ => .list []
      | .object _ => .object []
      | v => h.rebuild.value v }

/-- Hooks of which the one for fields takes the alias away. -/
def unaliasing (h : Hooks) : Hooks :=
  { h.rebuild with
    field := fun x => ({ (h.rebuild.field x).1 with aliasName := none }, (h.rebuild.field x).2) }

/-- Hooks of which the one for directives takes those of some names away, and goes on with the
arguments of the others. -/
def stripping (names : List String) (h : Hooks) : Hooks :=
  { h.rebuild with
    directives := fun ds => (ds.filter fun d => !names.contains d.name).map fun d =>
      { d with arguments := h.arguments d.arguments } }

theorem redacting_eq_described : redacting = Edit.described { value := redactValue } := by
  funext h
  exact Edit.value_overridden h fun v => by cases v <;> rfl

theorem blanking_eq_described : blanking = Edit.described { value := blankValue } := by
  funext h
  exact Edit.value_overridden h fun v => by cases v <;> rfl

theorem unaliasing_eq_described :
    unaliasing = Edit.described { field := fun f => { f with aliasName := none } } := by
  funext h
  exact Edit.field_overridden h fun x => rfl

theorem stripping_eq_described (names : List String) :
    stripping names = (Client.stripping names).described := by
  funext h
  refine Edit.directives_overridden h fun ds => ?_
  -- The arguments of a directive have no part in whether it goes.
  rw [rebuild, List.filter_map]
  rfl

theorem spares_redacting : Spares redacting fun p => ∀ v, p = .value v → v.IsRedacted where
  agreeOn_iff h p := by
    cases p with
    | value v =>
      cases v <;> simp [AgreeOn, redacting, rebuild, Value.IsRedacted, @eq_comm _ "0",
        @eq_comm _ ""]
    | _ => exact iff_of_true rfl fun v hv => by cases hv
  free_of_leaves h p hp v hv := by
    subst hv
    have hv : (redacting h).value v = v := hp
    cases v <;> simp_all [redacting, Value.IsRedacted]

theorem spares_blanking :
    Spares blanking fun p => ∀ v, p = .value v → v.IsRedacted ∧ v.IsHollow where
  agreeOn_iff h p := by
    cases p with
    | value v =>
      cases v <;> simp [AgreeOn, blanking, rebuild, Value.IsRedacted, Value.IsHollow,
        @eq_comm _ "0", @eq_comm _ ""]
    | _ => exact iff_of_true rfl fun v hv => by cases hv
  free_of_leaves h p hp v hv := by
    subst hv
    have hv : (blanking h).value v = v := hp
    cases v <;> simp_all [blanking, Value.IsRedacted, Value.IsHollow]

theorem spares_unaliasing :
    Spares unaliasing fun p => ∀ x, p = .field x → x.1.aliasName = none where
  agreeOn_iff h p := by
    cases p with
    | field x => simp [AgreeOn, unaliasing, rebuild, eq_comm]
    | _ => exact iff_of_true rfl fun x hx => by cases hx
  free_of_leaves h p hp x hx := by
    subst hx
    exact (congrArg (fun y : WholeField => y.1.aliasName) hp).symm

/-- As many directives are left as there were only where none has one of the names. -/
theorem forall_not_mem_of_length_stripping {names : List String} {h : Hooks}
    {ds : List Directive} (hl : ((stripping names h).directives ds).length = ds.length) :
    ∀ a ∈ ds, a.name ∉ names := by
  rw [stripping, List.length_map, List.length_filter_eq_length_iff] at hl
  simpa using hl

theorem spares_stripping (names : List String) : Spares (stripping names)
    fun p => ∀ ds, p = .directives ds → ∀ a ∈ ds, a.name ∉ names where
  agreeOn_iff h p := by
    cases p with
    | directives ds =>
      constructor
      · rintro hds _ ⟨⟩
        refine forall_not_mem_of_length_stripping ((congrArg List.length hds).trans ?_)
        exact List.length_map _
      · intro hfree
        have hall : (ds.filter fun d => !names.contains d.name) = ds :=
          List.filter_eq_self.mpr (by simpa using hfree)
        exact congrArg (List.map _) hall
    | _ => exact iff_of_true rfl fun ds hds => by cases hds
  free_of_leaves h p hp ds hds := by
    subst hds
    exact forall_not_mem_of_length_stripping (congrArg List.length hp)

/-- What is said of every part of a kind is said of each. -/
theorem forall_standsIn_iff {α : Type} {kind : α → Part} {P : α → Prop} {q : Part} :
    (∀ p, p.StandsIn q → ∀ x, p = kind x → P x) ↔ ∀ x, (kind x).StandsIn q → P x := by
  constructor
  · exact fun h x hx => h _ hx x rfl
  · rintro h _ hp x rfl
    exact h x hp

/-- A part comes back as it is when hooks do nothing to what stands in it but put it together again.
Without overrides hooks are the identity. Each of four edits amounts to hooks with one override, and
returns a document as it is just when none of what it is after stands in it: literals that are not
in their fixed form, for the stronger edit also lists and input objects that are not empty, aliases,
and directives of some names. -/
theorem hooks_change_only_targets :
    (∀ (h : Hooks) (p : Part), (∀ q, q.StandsIn p → h.Rebuilds q) → h.Leaves p) ∧
    ((∀ h : Hooks, h = h.rebuild ↔ h = identity) ∧ AmountTo rebuild Edit.identity.apply ∧
      ∀ d, Edit.identity.apply d = d) ∧
    (AmountTo redacting redact ∧ ∀ d, redact d = d ↔
      ∀ v, (Part.value v).StandsIn (.document d) → v.IsRedacted) ∧
    (AmountTo blanking hideLiterals ∧ ∀ d, hideLiterals d = d ↔
      ∀ v, (Part.value v).StandsIn (.document d) → v.IsRedacted ∧ v.IsHollow) ∧
    (AmountTo unaliasing removeAliases ∧ ∀ d, removeAliases d = d ↔
      ∀ x, (Part.field x).StandsIn (.document d) → x.1.aliasName = none) ∧
    ∀ names, AmountTo (stripping names) (stripDirectives names) ∧ ∀ d,
      stripDirectives names d = d ↔
        ∀ ds, (Part.directives ds).StandsIn (.document d) → ∀ a ∈ ds, a.name ∉ names := by
  have hredacting : AmountTo redacting redact :=
    redacting_eq_described ▸ Edit.amountTo_described { value := redactValue }
  have hblanking : AmountTo blanking hideLiterals :=
    blanking_eq_described ▸ Edit.amountTo_described { value := blankValue }
  have hunaliasing : AmountTo unaliasing removeAliases :=
    unaliasing_eq_described ▸ Edit.amountTo_described _
  have hstripping : ∀ names, AmountTo (stripping names) (stripDirectives names) := fun names =>
    stripping_eq_described names ▸ Edit.amountTo_described (Client.stripping names)
  refine ⟨fun h p hp => leaves_of_rebuilds hp,
    ⟨fun h => eq_rebuild_iff, Edit.amountTo_rebuild, Edit.apply_identity⟩,
    ⟨hredacting, fun d => ?_⟩, ⟨hblanking, fun d => ?_⟩, ⟨hunaliasing, fun d => ?_⟩,
    fun names => ⟨hstripping names, fun d => ?_⟩⟩
  · exact (spares_redacting.eq_self_iff hredacting d).trans forall_standsIn_iff
  · exact (spares_blanking.eq_self_iff hblanking d).trans forall_standsIn_iff
  · exact (spares_unaliasing.eq_self_iff hunaliasing d).trans forall_standsIn_iff
  · exact ((spares_stripping names).eq_self_iff (hstripping names) d).trans forall_standsIn_iff

end Hooks

end Safelist
