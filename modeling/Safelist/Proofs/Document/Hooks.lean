import Mathlib.Data.List.Basic
import Mathlib.Logic.Relation
import Safelist.Proofs.Document.Parts

/-!
# Hooks

A document can be gone through by hooks, one for each of thirteen kinds of part. A hook
that is not overridden puts its part together again from what the hooks make of the parts
in it. So hooks are described in terms of each other, and what one of them does is felt
wherever such parts stand. Since no part holds parts without end, one table of hooks at
most fits a description. A part comes back as it is, with all that stands in it, where no
hook does more to any of this than put it together again.
-/

namespace Safelist

/-- A field with its selection set, if it has one. -/
abbrev WholeField := Field × Option (List Selection)

/-- The selection that a field with its selection set is. -/
def Selection.ofField : WholeField → Selection
  | (f, none) => .leaf f
  | (f, some set) => .nested f set

/-- Fields are told by the selections they are. -/
theorem Selection.ofField_injective : Function.Injective Selection.ofField := by
  rintro ⟨f, _ | set⟩ ⟨f', _ | set'⟩ h <;> cases h <;> rfl

/-- An inline fragment with its selection set. -/
abbrev WholeInline := InlineHead × List Selection

/-- What is made of each kind of part. -/
@[ext]
structure Hooks where
  /-- What is made of a document. -/
  document : Document → Document
  /-- What is made of the definitions of a document. -/
  definitions : List Definition → List Definition
  /-- What is made of an operation. -/
  operation : Operation → Operation
  /-- What is made of a fragment. -/
  fragment : Fragment → Fragment
  /-- What is made of the variables of an operation. -/
  variableDefinitions : List VariableDefinition → List VariableDefinition
  /-- What is made of a selection set. -/
  selections : List Selection → List Selection
  /-- What is made of a selection; it may be dropped. -/
  selection : Selection → Option Selection
  /-- What is made of a field. -/
  field : WholeField → WholeField
  /-- What is made of the use of a fragment. -/
  spread : Spread → Spread
  /-- What is made of an inline fragment. -/
  inline : WholeInline → WholeInline
  /-- What is made of the arguments of a field or a directive. -/
  arguments : List Argument → List Argument
  /-- What is made of the directives on a part. -/
  directives : List Directive → List Directive
  /-- What is made of a value. -/
  value : Value → Value

/-- A part of a document for which there is a hook. -/
inductive Part where
  | document (d : Document)
  | definitions (ds : List Definition)
  | operation (op : Operation)
  | fragment (f : Fragment)
  | variableDefinitions (vs : List VariableDefinition)
  | selections (set : List Selection)
  | selection (s : Selection)
  | field (x : WholeField)
  | spread (use : Spread)
  | inline (x : WholeInline)
  | arguments (as : List Argument)
  | directives (ds : List Directive)
  | value (v : Value)

namespace Part

/-- A part is one of those that another one is put together from. -/
inductive IsIn : Part → Part → Prop
  -- What a document, an operation and a fragment are made of.
  | definitions (d : Document) : IsIn (.definitions d.definitions) (.document d)
  | operation {ds : List Definition} {op : Operation} (h : .operation op ∈ ds) :
    IsIn (.operation op) (.definitions ds)
  | fragment {ds : List Definition} {f : Fragment} (h : .fragment f ∈ ds) :
    IsIn (.fragment f) (.definitions ds)
  | operationVariables (op : Operation) :
    IsIn (.variableDefinitions op.variableDefinitions) (.operation op)
  | operationDirectives (op : Operation) : IsIn (.directives op.directives) (.operation op)
  | operationSelections (op : Operation) : IsIn (.selections op.selections) (.operation op)
  | fragmentDirectives (f : Fragment) : IsIn (.directives f.directives) (.fragment f)
  | fragmentSelections (f : Fragment) : IsIn (.selections f.selections) (.fragment f)
  | defaultValue {vs : List VariableDefinition} {v : VariableDefinition} {w : Value} (h : v ∈ vs)
    (hw : v.defaultValue = some w) : IsIn (.value w) (.variableDefinitions vs)
  | variableDirectives {vs : List VariableDefinition} {v : VariableDefinition} (h : v ∈ vs) :
    IsIn (.directives v.directives) (.variableDefinitions vs)
  -- Selections. What a selection is, a field or an inline fragment say, is a part in it.
  | selection {set : List Selection} {s : Selection} (h : s ∈ set) :
    IsIn (.selection s) (.selections set)
  | leaf (f : Field) : IsIn (.field (f, none)) (.selection (.leaf f))
  | nested (f : Field) (set : List Selection) :
    IsIn (.field (f, some set)) (.selection (.nested f set))
  | spread (use : Spread) : IsIn (.spread use) (.selection (.spread use))
  | inline (head : InlineHead) (set : List Selection) :
    IsIn (.inline (head, set)) (.selection (.inline head set))
  | fieldArguments (x : WholeField) : IsIn (.arguments x.1.arguments) (.field x)
  | fieldDirectives (x : WholeField) : IsIn (.directives x.1.directives) (.field x)
  | fieldSelections {x : WholeField} {set : List Selection} (h : x.2 = some set) :
    IsIn (.selections set) (.field x)
  | spreadDirectives (use : Spread) : IsIn (.directives use.directives) (.spread use)
  | inlineDirectives (x : WholeInline) : IsIn (.directives x.1.directives) (.inline x)
  | inlineSelections (x : WholeInline) : IsIn (.selections x.2) (.inline x)
  -- Values, wherever they are given, and those in lists and input objects.
  | argument {as : List Argument} {a : Argument} (h : a ∈ as) :
    IsIn (.value a.value) (.arguments as)
  | directive {ds : List Directive} {d : Directive} (h : d ∈ ds) :
    IsIn (.arguments d.arguments) (.directives ds)
  | item {items : List Value} {v : Value} (h : v ∈ items) : IsIn (.value v) (.value (.list items))
  | member {members : List (String × Value)} {m : String × Value} (h : m ∈ members) :
    IsIn (.value m.2) (.value (.object members))

/-- A part stands at some depth in another one, which may be itself. -/
def StandsIn : Part → Part → Prop := Relation.ReflTransGen IsIn

section WellFounded

theorem acc_value (v : Value) : Acc IsIn (.value v) := by
  induction v with
  | list items ih =>
    refine .intro _ fun q hq => ?_
    cases hq with
    | item h => exact ih _ h
  | object members ih =>
    refine .intro _ fun q hq => ?_
    cases hq with
    | member h => exact ih _ h
  | _ => exact .intro _ fun q hq => by cases hq

theorem acc_arguments (as : List Argument) : Acc IsIn (.arguments as) := by
  refine .intro _ fun q hq => ?_
  cases hq with
  | argument h => exact acc_value _

theorem acc_directives (ds : List Directive) : Acc IsIn (.directives ds) := by
  refine .intro _ fun q hq => ?_
  cases hq with
  | directive h => exact acc_arguments _

theorem acc_variableDefinitions (vs : List VariableDefinition) :
    Acc IsIn (.variableDefinitions vs) := by
  refine .intro _ fun q hq => ?_
  cases hq with
  | defaultValue h hw => exact acc_value _
  | variableDirectives h => exact acc_directives _

theorem acc_spread (use : Spread) : Acc IsIn (.spread use) := by
  refine .intro _ fun q hq => ?_
  cases hq with
  | spreadDirectives => exact acc_directives _

theorem acc_selections_of {set : List Selection} (h : ∀ s ∈ set, Acc IsIn (.selection s)) :
    Acc IsIn (.selections set) := by
  refine .intro _ fun q hq => ?_
  cases hq with
  | selection hs => exact h _ hs

theorem acc_field_of {x : WholeField} (h : ∀ set, x.2 = some set → Acc IsIn (.selections set)) :
    Acc IsIn (.field x) := by
  refine .intro _ fun q hq => ?_
  cases hq with
  | fieldArguments => exact acc_arguments _
  | fieldDirectives => exact acc_directives _
  | fieldSelections hset => exact h _ hset

theorem acc_inline_of {x : WholeInline} (h : Acc IsIn (.selections x.2)) :
    Acc IsIn (.inline x) := by
  refine .intro _ fun q hq => ?_
  cases hq with
  | inlineDirectives => exact acc_directives _
  | inlineSelections => exact h

theorem acc_selection (s : Selection) : Acc IsIn (.selection s) := by
  induction s with
  | leaf f =>
    refine .intro _ fun q hq => ?_
    cases hq with
    | leaf => exact acc_field_of fun set h => by cases h
  | nested f set ih =>
    refine .intro _ fun q hq => ?_
    cases hq with
    | nested => exact acc_field_of fun set' h => Option.some.inj h ▸ acc_selections_of ih
  | spread use =>
    refine .intro _ fun q hq => ?_
    cases hq with
    | spread => exact acc_spread use
  | inline head set ih =>
    refine .intro _ fun q hq => ?_
    cases hq with
    | inline => exact acc_inline_of (acc_selections_of ih)

theorem acc_selections (set : List Selection) : Acc IsIn (.selections set) :=
  acc_selections_of fun s _ => acc_selection s

theorem acc_operation (op : Operation) : Acc IsIn (.operation op) := by
  refine .intro _ fun q hq => ?_
  cases hq with
  | operationVariables => exact acc_variableDefinitions _
  | operationDirectives => exact acc_directives _
  | operationSelections => exact acc_selections _

theorem acc_fragment (f : Fragment) : Acc IsIn (.fragment f) := by
  refine .intro _ fun q hq => ?_
  cases hq with
  | fragmentDirectives => exact acc_directives _
  | fragmentSelections => exact acc_selections _

theorem acc_definitions (ds : List Definition) : Acc IsIn (.definitions ds) := by
  refine .intro _ fun q hq => ?_
  cases hq with
  | operation h => exact acc_operation _
  | fragment h => exact acc_fragment _

theorem acc_document (d : Document) : Acc IsIn (.document d) := by
  refine .intro _ fun q hq => ?_
  cases hq with
  | definitions => exact acc_definitions _

/-- No part holds parts without end. -/
theorem wellFounded_isIn : WellFounded IsIn := by
  refine ⟨fun p => ?_⟩
  cases p with
  | document d => exact acc_document d
  | definitions ds => exact acc_definitions ds
  | operation op => exact acc_operation op
  | fragment f => exact acc_fragment f
  | variableDefinitions vs => exact acc_variableDefinitions vs
  | selections set => exact acc_selections set
  | selection s => exact acc_selection s
  | field x => exact acc_field_of fun set _ => acc_selections set
  | spread use => exact acc_spread use
  | inline x => exact acc_inline_of (acc_selections x.2)
  | arguments as => exact acc_arguments as
  | directives ds => exact acc_directives ds
  | value v => exact acc_value v

end WellFounded

end Part

namespace Hooks

/-- What is made of a definition. -/
def definition (h : Hooks) : Definition → Definition
  | .operation op => .operation (h.operation op)
  | .fragment f => .fragment (h.fragment f)

/-- Each part put together again from what hooks make of the parts in it. -/
def rebuild (h : Hooks) : Hooks where
  document d := ⟨h.definitions d.definitions⟩
  definitions ds := ds.map h.definition
  operation op :=
    { op with
      variableDefinitions := h.variableDefinitions op.variableDefinitions
      directives := h.directives op.directives
      selections := h.selections op.selections }
  fragment f :=
    { f with directives := h.directives f.directives, selections := h.selections f.selections }
  variableDefinitions vs := vs.map fun v =>
    { v with
      defaultValue := v.defaultValue.map h.value
      directives := h.directives v.directives }
  selections set := set.filterMap h.selection
  selection
    | .leaf f => some (.ofField (h.field (f, none)))
    | .nested f set => some (.ofField (h.field (f, some set)))
    | .spread use => some (.spread (h.spread use))
    | .inline head set => some (.inline (h.inline (head, set)).1 (h.inline (head, set)).2)
  field x :=
    ({ x.1 with
        arguments := h.arguments x.1.arguments
        directives := h.directives x.1.directives },
      x.2.map h.selections)
  spread use := { use with directives := h.directives use.directives }
  inline x := ({ x.1 with directives := h.directives x.1.directives }, h.selections x.2)
  arguments as := as.map fun a => { a with value := h.value a.value }
  directives ds := ds.map fun d => { d with arguments := h.arguments d.arguments }
  value
    | .list items => .list (items.map h.value)
    | .object members => .object (members.map fun m => (m.1, h.value m.2))
    | v => v

/-- The hooks that return every part as it is. -/
def identity : Hooks where
  document := id
  definitions := id
  operation := id
  fragment := id
  variableDefinitions := id
  selections := id
  selection := some
  field := id
  spread := id
  inline := id
  arguments := id
  directives := id
  value := id

/-- Two tables of hooks make the same of a part. -/
def AgreeOn (h g : Hooks) : Part → Prop
  | .document d => h.document d = g.document d
  | .definitions ds => h.definitions ds = g.definitions ds
  | .operation op => h.operation op = g.operation op
  | .fragment f => h.fragment f = g.fragment f
  | .variableDefinitions vs => h.variableDefinitions vs = g.variableDefinitions vs
  | .selections set => h.selections set = g.selections set
  | .selection s => h.selection s = g.selection s
  | .field x => h.field x = g.field x
  | .spread use => h.spread use = g.spread use
  | .inline x => h.inline x = g.inline x
  | .arguments as => h.arguments as = g.arguments as
  | .directives ds => h.directives ds = g.directives ds
  | .value v => h.value v = g.value v

/-- Hooks return a part as it is. -/
def Leaves (h : Hooks) : Part → Prop := h.AgreeOn identity

/-- Hooks do nothing to a part but put it together again. -/
def Rebuilds (h : Hooks) : Part → Prop := h.AgreeOn h.rebuild

/-- What hooks are described to do to a part depends on what they do to the parts in it. -/
def IsLocal (described : Hooks → Hooks) : Prop :=
  ∀ (h g : Hooks) (p : Part), (∀ q, q.IsIn p → h.AgreeOn g q) →
    (described h).AgreeOn (described g) p

variable {h g k : Hooks} {p q : Part} {described : Hooks → Hooks}

theorem AgreeOn.symm (hg : h.AgreeOn g p) : g.AgreeOn h p := by
  cases p <;> exact Eq.symm hg

theorem AgreeOn.trans (hg : h.AgreeOn g p) (hk : g.AgreeOn k p) : h.AgreeOn k p := by
  cases p <;> exact Eq.trans hg hk

/-- Hooks that make the same of every part are the same. -/
theorem eq_of_agreeOn (hg : ∀ p, h.AgreeOn g p) : h = g := by
  ext1
  · exact funext fun d => hg (.document d)
  · exact funext fun ds => hg (.definitions ds)
  · exact funext fun op => hg (.operation op)
  · exact funext fun f => hg (.fragment f)
  · exact funext fun vs => hg (.variableDefinitions vs)
  · exact funext fun set => hg (.selections set)
  · exact funext fun s => hg (.selection s)
  · exact funext fun x => hg (.field x)
  · exact funext fun use => hg (.spread use)
  · exact funext fun x => hg (.inline x)
  · exact funext fun as => hg (.arguments as)
  · exact funext fun ds => hg (.directives ds)
  · exact funext fun v => hg (.value v)

theorem agreeOn_rebuild_definitions {ds : List Definition}
    (hp : ∀ q, q.IsIn (.definitions ds) → h.AgreeOn g q) :
    h.rebuild.AgreeOn g.rebuild (.definitions ds) := by
  refine List.map_congr_left fun x hx => ?_
  cases x with
  | operation op => exact congrArg Definition.operation (hp _ (.operation hx))
  | fragment f => exact congrArg Definition.fragment (hp _ (.fragment hx))

theorem agreeOn_rebuild_operation {op : Operation}
    (hp : ∀ q, q.IsIn (.operation op) → h.AgreeOn g q) :
    h.rebuild.AgreeOn g.rebuild (.operation op) := by
  have hv : h.variableDefinitions op.variableDefinitions =
    g.variableDefinitions op.variableDefinitions := hp _ (.operationVariables op)
  have hd : h.directives op.directives = g.directives op.directives :=
    hp _ (.operationDirectives op)
  have hs : h.selections op.selections = g.selections op.selections :=
    hp _ (.operationSelections op)
  simp only [AgreeOn, rebuild, hv, hd, hs]

theorem agreeOn_rebuild_fragment {f : Fragment}
    (hp : ∀ q, q.IsIn (.fragment f) → h.AgreeOn g q) :
    h.rebuild.AgreeOn g.rebuild (.fragment f) := by
  have hd : h.directives f.directives = g.directives f.directives :=
    hp _ (.fragmentDirectives f)
  have hs : h.selections f.selections = g.selections f.selections :=
    hp _ (.fragmentSelections f)
  simp only [AgreeOn, rebuild, hd, hs]

theorem agreeOn_rebuild_variableDefinitions {vs : List VariableDefinition}
    (hp : ∀ q, q.IsIn (.variableDefinitions vs) → h.AgreeOn g q) :
    h.rebuild.AgreeOn g.rebuild (.variableDefinitions vs) := by
  refine List.map_congr_left fun v hv => ?_
  have hw : v.defaultValue.map h.value = v.defaultValue.map g.value :=
    Option.map_congr fun w hw => hp _ (.defaultValue hv hw)
  have hd : h.directives v.directives = g.directives v.directives :=
    hp _ (.variableDirectives hv)
  rw [hw, hd]

theorem agreeOn_rebuild_selection {s : Selection}
    (hp : ∀ q, q.IsIn (.selection s) → h.AgreeOn g q) :
    h.rebuild.AgreeOn g.rebuild (.selection s) := by
  cases s with
  | leaf f => exact congrArg (some ∘ Selection.ofField) (hp _ (.leaf f))
  | nested f set => exact congrArg (some ∘ Selection.ofField) (hp _ (.nested f set))
  | spread use => exact congrArg (some ∘ Selection.spread) (hp _ (.spread use))
  | inline head set =>
    exact congrArg (fun x : WholeInline => some (Selection.inline x.1 x.2))
      (hp _ (.inline head set))

theorem agreeOn_rebuild_field {x : WholeField} (hp : ∀ q, q.IsIn (.field x) → h.AgreeOn g q) :
    h.rebuild.AgreeOn g.rebuild (.field x) := by
  have ha : h.arguments x.1.arguments = g.arguments x.1.arguments := hp _ (.fieldArguments x)
  have hd : h.directives x.1.directives = g.directives x.1.directives :=
    hp _ (.fieldDirectives x)
  have hs : x.2.map h.selections = x.2.map g.selections :=
    Option.map_congr fun set hset => hp _ (.fieldSelections hset)
  simp only [AgreeOn, rebuild, ha, hd, hs]

theorem agreeOn_rebuild_inline {x : WholeInline} (hp : ∀ q, q.IsIn (.inline x) → h.AgreeOn g q) :
    h.rebuild.AgreeOn g.rebuild (.inline x) := by
  have hd : h.directives x.1.directives = g.directives x.1.directives :=
    hp _ (.inlineDirectives x)
  have hs : h.selections x.2 = g.selections x.2 := hp _ (.inlineSelections x)
  simp only [AgreeOn, rebuild, hd, hs]

theorem agreeOn_rebuild_value {v : Value} (hp : ∀ q, q.IsIn (.value v) → h.AgreeOn g q) :
    h.rebuild.AgreeOn g.rebuild (.value v) := by
  cases v with
  | list items =>
    exact congrArg Value.list (List.map_congr_left fun v hv => hp _ (.item hv))
  | object members =>
    exact congrArg Value.object (List.map_congr_left fun m hm =>
      congrArg (Prod.mk m.1) (hp _ (.member hm)))
  | _ => rfl

/-- Putting parts together again looks at nothing but the parts in them. -/
theorem isLocal_rebuild : IsLocal rebuild := by
  intro h g p hp
  cases p with
  | document d => exact congrArg Document.mk (hp _ (.definitions d))
  | definitions ds => exact agreeOn_rebuild_definitions hp
  | operation op => exact agreeOn_rebuild_operation hp
  | fragment f => exact agreeOn_rebuild_fragment hp
  | variableDefinitions vs => exact agreeOn_rebuild_variableDefinitions hp
  | selections set => exact List.filterMap_congr fun s hs => hp _ (.selection hs)
  | selection s => exact agreeOn_rebuild_selection hp
  | field x => exact agreeOn_rebuild_field hp
  | spread use =>
    exact congrArg (fun ds => ({ use with directives := ds } : Spread))
      (hp _ (.spreadDirectives use))
  | inline x => exact agreeOn_rebuild_inline hp
  | arguments as =>
    refine List.map_congr_left fun a ha => ?_
    exact congrArg (fun v => ({ a with value := v } : Argument)) (hp _ (.argument ha))
  | directives ds =>
    refine List.map_congr_left fun d hd => ?_
    exact congrArg (fun as => ({ d with arguments := as } : Directive)) (hp _ (.directive hd))
  | value v => exact agreeOn_rebuild_value hp

/-- Only one table of hooks fits a local description. -/
theorem IsLocal.unique (hl : IsLocal described) (hh : h = described h) (hg : g = described g) :
    h = g := by
  refine eq_of_agreeOn fun p => ?_
  -- Both tables agree on the parts in `p`, so what they are described to do to `p` agrees too.
  induction p using Part.wellFounded_isIn.induction with
  | h p ih =>
    have hp := hl h g p ih
    rwa [← hh, ← hg] at hp

/-- What is put together again from parts that are as they were is as it was. -/
theorem rebuild_identity : identity.rebuild = identity := by
  refine eq_of_agreeOn fun p => ?_
  -- Only lists and alternatives need a look; the other parts are rebuilt by their fields.
  cases p with
  | definitions ds =>
    have hx : identity.definition = id := funext fun x => by cases x <;> rfl
    exact (congrArg (ds.map ·) hx).trans (List.map_id ds)
  | selection s => cases s <;> simp [AgreeOn, rebuild, identity, Selection.ofField]
  | value v => cases v <;> simp [AgreeOn, rebuild, identity]
  | _ => simp [AgreeOn, rebuild, identity]

/-- Hooks that only put parts together again return every part as it is, and no others do. -/
theorem eq_rebuild_iff : h = h.rebuild ↔ h = identity :=
  ⟨fun hh => isLocal_rebuild.unique hh rebuild_identity.symm, fun hh => hh ▸ rebuild_identity.symm⟩

/-- Where hooks put together again whatever stands in a part, they return the part as it is. -/
theorem leaves_of_rebuilds (hp : ∀ q, q.StandsIn p → h.Rebuilds q) : h.Leaves p := by
  induction p using Part.wellFounded_isIn.induction with
  | h p ih =>
    have hparts : ∀ q, q.IsIn p → h.AgreeOn identity q := fun q hq =>
      ih q hq fun r hr => hp r (hr.tail hq)
    have hrebuilt := isLocal_rebuild h identity p hparts
    rw [rebuild_identity] at hrebuilt
    exact (hp p .refl).trans hrebuilt

/-- A part that is the same once it is put together again consists of parts that are. -/
theorem leaves_of_isIn (hp : h.rebuild.Leaves p) (hq : q.IsIn p) : h.Leaves q := by
  cases hq with
  | definitions d => exact Document.mk.inj hp
  | operation hop => exact Definition.operation.inj (eq_of_map_eq_self hp _ hop)
  | fragment hf => exact Definition.fragment.inj (eq_of_map_eq_self hp _ hf)
  | operationVariables op => exact (Operation.mk.inj hp).2.2.1
  | operationDirectives op => exact (Operation.mk.inj hp).2.2.2.1
  | operationSelections op => exact (Operation.mk.inj hp).2.2.2.2
  | fragmentDirectives f => exact (Fragment.mk.inj hp).2.2.1
  | fragmentSelections f => exact (Fragment.mk.inj hp).2.2.2
  | defaultValue hv hw =>
    have hd := (VariableDefinition.mk.inj (eq_of_map_eq_self hp _ hv)).2.2.1
    rw [hw] at hd
    exact Option.some.inj hd
  | variableDirectives hv => exact (VariableDefinition.mk.inj (eq_of_map_eq_self hp _ hv)).2.2.2
  | @selection set s hs =>
    have hset : set.filterMap h.selection = set.map id :=
      Eq.trans hp (List.map_id set).symm
    exact List.filterMap_eq_map_iff_forall_eq_some.mp hset s hs
  | leaf f => exact Selection.ofField_injective (Option.some.inj hp)
  | nested f set => exact Selection.ofField_injective (Option.some.inj hp)
  | spread use => exact Selection.spread.inj (Option.some.inj hp)
  | inline head set =>
    obtain ⟨hhead, hset⟩ := Selection.inline.inj (Option.some.inj hp)
    exact Prod.ext hhead hset
  | fieldArguments x => exact congrArg (fun y : WholeField => y.1.arguments) hp
  | fieldDirectives x => exact congrArg (fun y : WholeField => y.1.directives) hp
  | @fieldSelections x set hset =>
    have hx : x.2.map h.selections = x.2 := congrArg Prod.snd hp
    rw [hset] at hx
    exact Option.some.inj hx
  | spreadDirectives use => exact (Spread.mk.inj hp).2
  | inlineDirectives x => exact congrArg (fun y : WholeInline => y.1.directives) hp
  | inlineSelections x => exact congrArg Prod.snd hp
  | argument ha => exact (Argument.mk.inj (eq_of_map_eq_self hp _ ha)).2
  | directive hd => exact (Directive.mk.inj (eq_of_map_eq_self hp _ hd)).2
  | item hv => exact eq_of_map_eq_self (Value.list.inj hp) _ hv
  | member hm => exact (Prod.mk.inj (eq_of_map_eq_self (Value.object.inj hp) _ hm)).2

/-- Where hooks leave no part alone but by putting it together again, a part that they leave alone
holds only such parts. -/
theorem leaves_iff (hr : ∀ p, h.Leaves p → h.Rebuilds p) :
    h.Leaves p ↔ ∀ q, q.StandsIn p → h.Rebuilds q := by
  refine ⟨fun hp q hq => hr q ?_, leaves_of_rebuilds⟩
  -- On the way down to `q`, every part that is passed comes back as it is.
  induction hq using Relation.ReflTransGen.head_induction_on with
  | refl => exact hp
  | @head q r hqr _ ih =>
    have hrebuilt : h.rebuild.Leaves r := (hr r ih).symm.trans ih
    exact leaves_of_isIn hrebuilt hqr

end Hooks

end Safelist
