import Mathlib.Data.List.Forall2
import Safelist.Proofs.Client.Merging
import Safelist.Proofs.Client.Rounds
import Safelist.Proofs.Document.Addresses

/-!
# What is left of annotations

What the server is to see of a document is left of it: fields that ask for types may
have come in, selections and fragments may have gone, and of the directives on what
is still there those of some names are missing. All others stay where they were.
-/

namespace Safelist.Client

/-- What is left of directives once those of some names are taken away. -/
def spared (names : List String) (ds : List Directive) : List Directive :=
  ds.filter fun d => !names.contains d.name

/-- A selection set is left of another one. Selections may have gone, the directives of some names
have, and in front of the selections of a field its type may be asked for. -/
inductive LeftOf (asks : Bool) (names : List String) : List Selection → List Selection → Prop
  /-- Nothing is left of nothing. -/
  | nil : LeftOf asks names [] []
  /-- A selection has gone. -/
  | gone {set' set : List Selection} (s : Selection) (h : LeftOf asks names set' set) :
    LeftOf asks names set' (s :: set)
  /-- A field without a selection set stays. -/
  | leaf {set' set : List Selection} (f : Field) (h : LeftOf asks names set' set) :
    LeftOf asks names (.leaf { f with directives := spared names f.directives } :: set')
      (.leaf f :: set)
  /-- A field with a selection set stays. -/
  | nested {set' set inner' inner : List Selection} (f : Field)
    (hi : LeftOf asks names inner' inner) (h : LeftOf asks names set' set) :
    LeftOf asks names (.nested { f with directives := spared names f.directives } inner' :: set')
      (.nested f inner :: set)
  /-- A field with a selection set stays, and its type is asked for. -/
  | asking {set' set inner' inner : List Selection} (f : Field) (ha : asks = true)
    (hi : LeftOf asks names inner' inner) (h : LeftOf asks names set' set) :
    LeftOf asks names (.nested { f with directives := spared names f.directives }
      (.leaf (.plain typename) :: inner') :: set') (.nested f inner :: set)
  /-- The use of a fragment stays. -/
  | spread {set' set : List Selection} (use : Spread) (h : LeftOf asks names set' set) :
    LeftOf asks names (.spread { use with directives := spared names use.directives } :: set')
      (.spread use :: set)
  /-- An inline fragment stays. -/
  | inline {set' set inner' inner : List Selection} (head : InlineHead)
    (hi : LeftOf asks names inner' inner) (h : LeftOf asks names set' set) :
    LeftOf asks names (.inline { head with directives := spared names head.directives } inner' ::
      set') (.inline head inner :: set)

/-- An operation is left of another one. -/
structure OperationLeftOf (asks : Bool) (names : List String) (op' op : Operation) : Prop where
  /-- The kind is the same. -/
  kind : op'.kind = op.kind
  /-- The name is the same. -/
  name : op'.name = op.name
  /-- Of the variables, directives of some names are gone. -/
  variableDefinitions : op'.variableDefinitions =
    op.variableDefinitions.map fun v => { v with directives := spared names v.directives }
  /-- The directives of some names are gone. -/
  directives : op'.directives = spared names op.directives
  /-- The selections are left of those of the other one. -/
  selections : LeftOf asks names op'.selections op.selections

/-- A fragment is left of another one. In front of its selections its type may be asked for. -/
structure FragmentLeftOf (asks : Bool) (names : List String) (f' f : Fragment) : Prop where
  /-- The name is the same. -/
  name : f'.name = f.name
  /-- The type is the same. -/
  typeCondition : f'.typeCondition = f.typeCondition
  /-- The directives of some names are gone. -/
  directives : f'.directives = spared names f.directives
  /-- The selections are left of those of the other one. -/
  selections : ∃ set, LeftOf asks names set f.selections ∧
    (f'.selections = set ∨ asks = true ∧ f'.selections = .leaf (.plain typename) :: set)

variable {asks : Bool} {names : List String} {set set' set'' : List Selection}

@[simp] theorem spared_nil (ds : List Directive) : spared [] ds = ds := by simp [spared]

theorem mem_spared_iff {ds : List Directive} {d : Directive} :
    d ∈ spared names ds ↔ d ∈ ds ∧ d.name ∉ names := by simp [spared]

section Passes

/-- What is left of what is left, after directives have been taken away at last. -/
theorem LeftOf.trans (h : LeftOf asks [] set' set) (h' : LeftOf false names set'' set') :
    LeftOf asks names set'' set := by
  induction h generalizing set'' with
  | nil =>
    cases h'
    exact .nil
  | gone s _ ih => exact .gone s (ih h')
  | leaf f _ ih =>
    cases h' with
    | gone _ h' => exact .gone _ (ih h')
    | leaf _ h' => simpa using LeftOf.leaf f (ih h')
  | nested f _ _ ihi ih =>
    cases h' with
    | gone _ h' => exact .gone _ (ih h')
    | nested _ hi' h' => simpa using LeftOf.nested f (ihi hi') (ih h')
    | asking _ ha => cases ha
  | asking f ha _ _ ihi ih =>
    cases h' with
    | gone _ h' => exact .gone _ (ih h')
    | nested _ hi' h' =>
      cases hi' with
      | gone _ hi' => simpa using LeftOf.nested f (ihi hi') (ih h')
      | leaf _ hi' => simpa [Field.plain, spared] using LeftOf.asking f ha (ihi hi') (ih h')
    | asking _ ha => cases ha
  | spread use _ ih =>
    cases h' with
    | gone _ h' => exact .gone _ (ih h')
    | spread _ h' => simpa using LeftOf.spread use (ih h')
  | inline head _ _ ihi ih =>
    cases h' with
    | gone _ h' => exact .gone _ (ih h')
    | inline _ hi' h' => simpa using LeftOf.inline head (ihi hi') (ih h')

/-- Everything is left of a selection set as it is. -/
theorem LeftOf.refl (set : List Selection) : LeftOf asks [] set set := by
  induction set using Selection.set_induction with
  | step set ih =>
    induction set with
    | nil => exact .nil
    | cons s rest ihs =>
      obtain ⟨hs, hrest⟩ := List.forall_mem_cons.mp ih
      cases s with
      | leaf f => simpa using LeftOf.leaf f (ihs hrest)
      | nested f inner => simpa using LeftOf.nested f (hs _ _ rfl) (ihs hrest)
      | spread use => simpa using LeftOf.spread use (ihs hrest)
      | inline head inner => simpa using LeftOf.inline head (hs _ _ rfl) (ihs hrest)

/-- What an edit makes of a document is left of it. -/
structure Leaves (e : Edit) (asks : Bool) (names : List String) : Prop where
  /-- Values stay. -/
  value : e.value = id
  /-- Arguments stay. -/
  arguments : e.arguments = id
  /-- The directives of some names go. -/
  directives : e.directives = spared names
  /-- Variables stay. -/
  variableDefinitions : e.variableDefinitions = id
  /-- Fields stay. -/
  field : e.field = id
  /-- A selection stays, unless it goes. -/
  selection : ∀ {s t}, e.selection s = some t → t = s
  /-- Selection sets stay. -/
  selections : e.selections = id
  /-- A field may ask for its type. -/
  fieldSelections : ∀ set, e.fieldSelections set = set ∨
    asks = true ∧ e.fieldSelections set = .leaf (.plain typename) :: set
  /-- A fragment may ask for its type. -/
  fragmentSelections : ∀ set, e.fragmentSelections set = set ∨
    asks = true ∧ e.fragmentSelections set = .leaf (.plain typename) :: set
  /-- Definitions stay. -/
  definitions : e.definitions = id

theorem leaves_askingTypes : Leaves askingTypes true [] := by
  have hset : ∀ set : List Selection,
      withTypename set = set ∨ true = true ∧ withTypename set = .leaf (.plain typename) :: set := by
    intro set
    unfold withTypename
    split
    · exact .inl rfl
    · exact .inr ⟨rfl, rfl⟩
  exact ⟨rfl, rfl, funext fun ds => (spared_nil ds).symm, rfl, rfl,
    fun h => (Option.some.inj h).symm, rfl, hset, hset, rfl⟩

theorem leaves_dropping (unwanted : Selection → Bool) : Leaves (dropping unwanted) false [] :=
  ⟨rfl, rfl, funext fun ds => (spared_nil ds).symm, rfl, rfl,
    fun h => (selection_dropping_eq_some h).1, rfl, fun _ => .inl rfl, fun _ => .inl rfl, rfl⟩

theorem leaves_stripping (names : List String) : Leaves (stripping names) false names :=
  ⟨rfl, rfl, rfl, rfl, rfl, fun h => (Option.some.inj h).symm, rfl, fun _ => .inl rfl,
    fun _ => .inl rfl, rfl⟩

namespace Leaves

variable {e : Edit} (he : Leaves e asks names)
include he

theorem onArguments_eq (as : List Argument) : e.onArguments as = as := by
  simp [Edit.onArguments, he.arguments, Edit.onValue_of_value he.value]

theorem onDirectives_eq (ds : List Directive) : e.onDirectives ds = spared names ds := by
  simp [Edit.onDirectives, he.directives, he.onArguments_eq]

theorem onVariables_eq (vs : List VariableDefinition) : e.onVariables vs =
    vs.map fun v => { v with directives := spared names v.directives } := by
  have hv : e.onValue = id := funext (Edit.onValue_of_value he.value)
  simp [Edit.onVariables, he.variableDefinitions, hv, he.onDirectives_eq]

theorem onField_eq (f : Field) :
    e.onField f = { f with directives := spared names f.directives } := by
  simp [Edit.onField, he.field, he.onArguments_eq, he.onDirectives_eq]

/-- Where a selection is left, it goes or stays. -/
theorem toList_selection (s : Selection) :
    (e.selection s).toList = [] ∨ (e.selection s).toList = [s] := by
  cases hs : e.selection s with
  | none => exact .inl rfl
  | some t => exact .inr (congrArg (fun t => [t]) (he.selection hs))

omit he in
/-- What is left of selections one by one is left of their set. -/
theorem leftOf_onEach (h : ∀ s ∈ set, ∀ rest' rest, LeftOf asks names rest' rest →
      LeftOf asks names ((e.onSelection s).toList ++ rest') (s :: rest)) :
    LeftOf asks names (e.onEach set) set := by
  induction set with
  | nil => exact .nil
  | cons s rest ih =>
    obtain ⟨hs, hrest⟩ := List.forall_mem_cons.mp h
    have heach : e.onEach (s :: rest) = (e.onSelection s).toList ++ e.onEach rest := by
      rw [Edit.onEach]
      cases e.onSelection s <;> rfl
    rw [heach]
    exact hs _ _ (ih hrest)

/-- A selection goes, or what is left of it stays in front of what is left of the others. -/
theorem leftOf_onSelection (s : Selection) : ∀ set' set, LeftOf asks names set' set →
    LeftOf asks names ((e.onSelection s).toList ++ set') (s :: set) := by
  induction s with
  | leaf f =>
    intro set' set h
    rw [Edit.onSelection, he.onField_eq]
    obtain hs | hs := he.toList_selection (.leaf { f with directives := spared names f.directives })
    · exact hs ▸ .gone _ h
    · exact hs ▸ .leaf f h
  | nested f inner ih =>
    intro set' set h
    have hi := leftOf_onEach ih
    rw [Edit.onSelection, he.onField_eq, he.selections, id_eq]
    obtain hs | hs := he.toList_selection
      (.nested { f with directives := spared names f.directives }
        (e.fieldSelections (e.onEach inner)))
    · exact hs ▸ .gone _ h
    · rw [hs]
      obtain hf | ⟨ha, hf⟩ := he.fieldSelections (e.onEach inner)
      · exact hf.symm ▸ .nested f hi h
      · exact hf.symm ▸ .asking f ha hi h
  | spread use =>
    intro set' set h
    rw [Edit.onSelection, Edit.onSpread, he.onDirectives_eq]
    obtain hs | hs :=
      he.toList_selection (.spread { use with directives := spared names use.directives })
    · exact hs ▸ .gone _ h
    · exact hs ▸ .spread use h
  | inline head inner ih =>
    intro set' set h
    have hi := leftOf_onEach ih
    rw [Edit.onSelection, Edit.onInlineHead, he.onDirectives_eq, he.selections, id_eq]
    obtain hs | hs := he.toList_selection
      (.inline { head with directives := spared names head.directives } (e.onEach inner))
    · exact hs ▸ .gone _ h
    · exact hs ▸ .inline head hi h

theorem leftOf_onSelections (set : List Selection) :
    LeftOf asks names (e.onSelections set) set := by
  rw [Edit.onSelections, he.selections]
  exact leftOf_onEach fun s _ => he.leftOf_onSelection s

theorem operationLeftOf (op : Operation) : OperationLeftOf asks names (e.onOperation op) op :=
  ⟨rfl, rfl, he.onVariables_eq _, he.onDirectives_eq _, he.leftOf_onSelections _⟩

theorem fragmentLeftOf (f : Fragment) : FragmentLeftOf asks names (e.onFragment f) f :=
  ⟨rfl, rfl, he.onDirectives_eq _, _, he.leftOf_onSelections _, he.fragmentSelections _⟩

end Leaves

theorem OperationLeftOf.trans {op op' op'' : Operation} (h : OperationLeftOf asks [] op' op)
    (h' : OperationLeftOf false names op'' op') : OperationLeftOf asks names op'' op where
  kind := h'.kind.trans h.kind
  name := h'.name.trans h.name
  variableDefinitions := by
    rw [h'.variableDefinitions, h.variableDefinitions, List.map_map]
    simp [Function.comp_def]
  directives := by rw [h'.directives, h.directives, spared_nil]
  selections := h.selections.trans h'.selections

theorem FragmentLeftOf.trans {f f' f'' : Fragment} (h : FragmentLeftOf asks [] f' f)
    (h' : FragmentLeftOf false names f'' f') : FragmentLeftOf asks names f'' f where
  name := h'.name.trans h.name
  typeCondition := h'.typeCondition.trans h.typeCondition
  directives := by rw [h'.directives, h.directives, spared_nil]
  selections := by
    obtain ⟨set, hs, hf⟩ := h.selections
    obtain ⟨set', hs', hf' | ⟨ha, -⟩⟩ := h'.selections
    · rw [hf']
      obtain hf | ⟨ha, hf⟩ := hf
      · rw [hf] at hs'
        exact ⟨set', hs.trans hs', .inl rfl⟩
      · rw [hf] at hs'
        cases hs' with
        | gone _ hs' => exact ⟨set', hs.trans hs', .inl rfl⟩
        | leaf _ hs' => exact ⟨_, hs.trans hs', .inr ⟨ha, by simp [Field.plain, spared]⟩⟩
    · cases ha

/-- What remains of some parts of what remains of a list remains of the list. -/
theorem sublistForall₂_trans {α : Type} {R S T : α → α → Prop}
    (hT : ∀ a b c, R a b → S b c → T a c) {xs ys zs : List α} (h : List.SublistForall₂ R xs ys)
    (h' : List.SublistForall₂ S ys zs) : List.SublistForall₂ T xs zs := by
  induction h' generalizing xs with
  | nil =>
    cases h
    exact .nil
  | cons hbc _ ih =>
    cases h with
    | nil => exact .nil
    | cons hab h => exact .cons (hT _ _ _ hab hbc) (ih h)
    | cons_right h => exact .cons_right (ih h)
  | cons_right _ ih => exact .cons_right (ih h)

/-- Whatever remains of a list remains of something in it. -/
theorem exists_of_mem_sublistForall₂ {α : Type} {R : α → α → Prop} {xs ys : List α}
    (h : List.SublistForall₂ R xs ys) : ∀ x ∈ xs, ∃ y ∈ ys, R x y := by
  induction h with
  | nil => simp
  | cons hr _ ih =>
    refine List.forall_mem_cons.mpr ⟨⟨_, List.mem_cons_self, hr⟩, fun x hx => ?_⟩
    obtain ⟨y, hy, hxy⟩ := ih x hx
    exact ⟨y, List.mem_cons_of_mem _ hy, hxy⟩
  | cons_right _ ih =>
    intro x hx
    obtain ⟨y, hy, hxy⟩ := ih x hx
    exact ⟨y, List.mem_cons_of_mem _ hy, hxy⟩

/-- A document is what remains of an operation with fragments. Fragments may be gone. -/
def RemainsOf (asks : Bool) (names : List String) (d : Document) (op : Operation)
    (fs : List Fragment) : Prop :=
  ∃ op' fs', d = .bundle op' fs' ∧ OperationLeftOf asks names op' op ∧
    List.SublistForall₂ (FragmentLeftOf asks names) fs' fs

variable {op op' : Operation} {fs fs' fs'' : List Fragment} {d : Document} {e : Edit}

theorem OperationLeftOf.refl (op : Operation) : OperationLeftOf asks [] op op :=
  ⟨rfl, rfl, by simp, (spared_nil _).symm, .refl _⟩

instance : Std.Refl (FragmentLeftOf asks []) :=
  ⟨fun f => ⟨rfl, rfl, (spared_nil _).symm, f.selections, .refl _, .inl rfl⟩⟩

/-- A bundle of an operation remains of it, as far as its fragments are there. -/
theorem remainsOf_bundle (op : Operation) (hs : fs'.Sublist fs) :
    RemainsOf asks [] (.bundle op fs') op fs :=
  ⟨op, fs', rfl, .refl op, hs.sublistForall₂⟩

/-- Fragments may be left out of what remains. -/
theorem RemainsOf.sublist (h : RemainsOf asks names (.bundle op' fs') op fs)
    (hs : fs''.Sublist fs') : RemainsOf asks names (.bundle op' fs'') op fs := by
  obtain ⟨op₁, fs₁, hd, hop, hfs⟩ := h
  obtain ⟨rfl, rfl⟩ := Document.bundle_inj hd
  have hsub : List.SublistForall₂ (· = ·) fs'' fs' := hs.sublistForall₂
  refine ⟨op', fs'', rfl, hop, sublistForall₂_trans ?_ hsub hfs⟩
  rintro f f' f₀ rfl hf
  exact hf

/-- What remains may be edited. -/
theorem RemainsOf.edit (h : RemainsOf asks [] (.bundle op' fs') op fs)
    (he : Leaves e false names) :
    RemainsOf asks names (.bundle (e.onOperation op') (fs'.map e.onFragment)) op fs := by
  obtain ⟨op₁, fs₁, hd, hop, hfs⟩ := h
  obtain ⟨rfl, rfl⟩ := Document.bundle_inj hd
  have hedit : List.SublistForall₂ (FragmentLeftOf false names) (fs'.map e.onFragment) fs' :=
    List.sublistForall₂_map_left_iff.mpr (List.sublistForall₂_iff.mpr
      ⟨fs', List.forall₂_same.mpr fun f _ => he.fragmentLeftOf f, List.Sublist.refl fs'⟩)
  exact ⟨_, _, rfl, hop.trans (he.operationLeftOf op'),
    sublistForall₂_trans (fun _ _ _ hf' hf => hf.trans hf') hedit hfs⟩

/-- Asking for types leaves everything. -/
theorem remainsOf_addTypename (op : Operation) (hs : fs'.Sublist fs) :
    RemainsOf true [] (addTypename (.bundle op fs')) op fs := by
  have hedit : List.SublistForall₂ (FragmentLeftOf true []) (fs'.map askingTypes.onFragment) fs :=
    List.sublistForall₂_map_left_iff.mpr (List.sublistForall₂_iff.mpr
      ⟨fs', List.forall₂_same.mpr fun f _ => leaves_askingTypes.fragmentLeftOf f, hs⟩)
  exact ⟨_, _, Document.apply_bundle rfl op fs', leaves_askingTypes.operationLeftOf op, hedit⟩

/-- Rounds of erasure leave what they do not drop. -/
theorem RemainsOf.dropEmptyFragments (h : RemainsOf asks [] d op fs) :
    RemainsOf asks [] (dropEmptyFragments d) op fs := by
  fun_induction Client.dropEmptyFragments d with
  | case1 d hd => exact h
  | case2 d hd ih =>
    obtain ⟨op', fs', rfl, hop, hfs⟩ := h
    rw [dropFragments_bundle] at ih
    have hrest : RemainsOf asks [] (.bundle op' fs') op fs := ⟨op', fs', rfl, hop, hfs⟩
    rw [dropFragments_bundle]
    exact ih ((hrest.sublist List.filter_sublist).edit (leaves_dropping _))

/-- Erasing client-side fields leaves what it does not drop. -/
theorem RemainsOf.eraseClientFields (h : RemainsOf asks [] d op fs) (schema : List String) :
    RemainsOf asks [] (eraseClientFields schema d) op fs := by
  unfold Client.eraseClientFields
  split
  · exact h
  · obtain ⟨op', fs', rfl, hop, hfs⟩ := h
    have hpass : RemainsOf asks [] ((dropping (isClientField schema)).apply (.bundle op' fs'))
        op fs := by
      rw [Document.apply_bundle rfl]
      exact RemainsOf.edit ⟨op', fs', rfl, hop, hfs⟩ (leaves_dropping _)
    obtain ⟨op₂, fs₂, hd, hop₂, hfs₂⟩ := hpass.dropEmptyFragments
    rw [hd, dropUnusedFragments_bundle]
    exact RemainsOf.sublist ⟨op₂, fs₂, rfl, hop₂, hfs₂⟩ List.filter_sublist

/-- What the server is to see of an operation with fragments remains of it. -/
theorem remainsOf_serverSide (s : Settings) (op : Operation) (hs : fs'.Sublist fs) :
    RemainsOf s.addTypename s.clientOnlyDirectives (serverSide s (.bundle op fs')) op fs := by
  have htypes : RemainsOf s.addTypename []
      (if s.addTypename then addTypename (.bundle op fs') else .bundle op fs') op fs := by
    split
    · rename_i ha
      rw [ha]
      exact remainsOf_addTypename op hs
    · exact remainsOf_bundle op hs
  obtain ⟨op₁, fs₁, hd, hop, hfs⟩ := htypes.eraseClientFields s.clientSchemaDirectives
  rw [serverSide, hd, stripDirectives, Document.apply_bundle rfl]
  exact RemainsOf.edit ⟨op₁, fs₁, rfl, hop, hfs⟩ (leaves_stripping _)

end Passes

section Clear

/-- No directive has one of these names. -/
def FreeOf (names : List String) (ds : List Directive) : Prop := ∀ a ∈ ds, a.name ∉ names

/-- A selection is not a field with a directive of one of these names. -/
def NoField (names : List String) (s : Selection) : Prop :=
  ∀ f inner, s = .leaf f ∨ s = .nested f inner → FreeOf names f.directives

variable {schema : List String} {ds : List Directive}

theorem freeOf_spared (names : List String) (ds : List Directive) :
    FreeOf names (spared names ds) := fun _ ha => (mem_spared_iff.mp ha).2

theorem FreeOf.spared (h : FreeOf schema ds) (names : List String) :
    FreeOf schema (spared names ds) := fun a ha => h a (mem_spared_iff.mp ha).1

theorem isAnnotated_eq_false_iff : isAnnotated names ds = false ↔ FreeOf names ds := by
  simp [isAnnotated, FreeOf]

theorem isClientField_eq_false_iff {s : Selection} :
    isClientField schema s = false ↔ NoField schema s := by
  cases s <;> simp [isClientField, NoField, isAnnotated_eq_false_iff]

/-- What is left has no directive of the names that were to go. -/
theorem LeftOf.everywhere_freeOf (h : LeftOf asks names set' set) :
    Everywhere (fun s => FreeOf names s.directives) set' := by
  induction h with
  | nil => exact everywhere_nil
  | gone s _ ih => exact ih
  | leaf f _ ih => exact everywhere_leaf_cons.mpr ⟨freeOf_spared _ _, ih⟩
  | nested f _ _ ihi ih => exact everywhere_nested_cons.mpr ⟨⟨freeOf_spared _ _, ihi⟩, ih⟩
  | asking f ha _ _ ihi ih =>
    have htype : FreeOf names (Field.plain typename).directives := by simp [FreeOf, Field.plain]
    exact everywhere_nested_cons.mpr
      ⟨⟨freeOf_spared _ _, everywhere_leaf_cons.mpr ⟨htype, ihi⟩⟩, ih⟩
  | spread use _ ih => exact everywhere_spread_cons.mpr ⟨freeOf_spared _ _, ih⟩
  | inline head _ _ ihi ih => exact everywhere_inline_cons.mpr ⟨⟨freeOf_spared _ _, ihi⟩, ih⟩

@[simp] theorem noField_leaf_iff {f : Field} :
    NoField schema (.leaf f) ↔ FreeOf schema f.directives := by simp [NoField]

@[simp] theorem noField_nested_iff {f : Field} {inner : List Selection} :
    NoField schema (.nested f inner) ↔ FreeOf schema f.directives := by simp [NoField]

theorem noField_spread (use : Spread) : NoField schema (.spread use) := by simp [NoField]

theorem noField_inline (head : InlineHead) (inner : List Selection) :
    NoField schema (.inline head inner) := by simp [NoField]

/-- No field comes in where none may ask for its type. -/
theorem LeftOf.everywhere_noField (h : LeftOf false names set' set)
    (hset : Everywhere (NoField schema) set) : Everywhere (NoField schema) set' := by
  induction h with
  | nil => exact everywhere_nil
  | gone s _ ih => exact ih (everywhere_cons_iff.mp hset).2
  | leaf f _ ih =>
    obtain ⟨hf, hset⟩ := everywhere_leaf_cons.mp hset
    refine everywhere_leaf_cons.mpr ⟨?_, ih hset⟩
    exact noField_leaf_iff.mpr ((noField_leaf_iff.mp hf).spared names)
  | nested f _ _ ihi ih =>
    obtain ⟨⟨hf, hi⟩, hset⟩ := everywhere_nested_cons.mp hset
    refine everywhere_nested_cons.mpr ⟨⟨?_, ihi hi⟩, ih hset⟩
    exact noField_nested_iff.mpr ((noField_nested_iff.mp hf).spared names)
  | asking f ha => cases ha
  | spread use _ ih =>
    obtain ⟨-, hset⟩ := everywhere_spread_cons.mp hset
    exact everywhere_spread_cons.mpr ⟨noField_spread _, ih hset⟩
  | inline head _ _ ihi ih =>
    obtain ⟨⟨-, hi⟩, hset⟩ := everywhere_inline_cons.mp hset
    exact everywhere_inline_cons.mpr ⟨⟨noField_inline _ _, ihi hi⟩, ih hset⟩

theorem selection_isClientField_eq_some {s t : Selection}
    (h : (dropping (isClientField schema)).selection s = some t) : t = s ∧ NoField schema s := by
  obtain ⟨ht, hs, -⟩ := selection_dropping_eq_some h
  exact ⟨ht, isClientField_eq_false_iff.mp hs⟩

/-- What is left of selections has no such fields if what is left of each has none. -/
theorem everywhere_noField_onEach (h : ∀ s ∈ set, ∀ t,
      (dropping (isClientField schema)).onSelection s = some t → Everywhere (NoField schema) [t]) :
    Everywhere (NoField schema) ((dropping (isClientField schema)).onEach set) := by
  rw [Edit.onEach_eq_filterMap]
  refine everywhere_iff.mpr fun t ht => ?_
  obtain ⟨s, hs, hst⟩ := List.mem_filterMap.mp ht
  exact (everywhere_cons_iff.mp (h s hs t hst)).1

/-- Where fields with certain directives are dropped, what is left of a selection has none. -/
theorem everywhere_noField_onSelection (s : Selection) : ∀ t,
    (dropping (isClientField schema)).onSelection s = some t →
      Everywhere (NoField schema) [t] := by
  induction s with
  | leaf f =>
    intro t ht
    obtain ⟨rfl, hf⟩ := selection_isClientField_eq_some ht
    exact everywhere_leaf_cons.mpr ⟨hf, everywhere_nil⟩
  | nested f inner ih =>
    intro t ht
    obtain ⟨rfl, hf⟩ := selection_isClientField_eq_some ht
    exact everywhere_nested_cons.mpr ⟨⟨hf, everywhere_noField_onEach ih⟩, everywhere_nil⟩
  | spread use =>
    intro t ht
    obtain ⟨rfl, hf⟩ := selection_isClientField_eq_some ht
    exact everywhere_spread_cons.mpr ⟨hf, everywhere_nil⟩
  | inline head inner ih =>
    intro t ht
    obtain ⟨rfl, hf⟩ := selection_isClientField_eq_some ht
    exact everywhere_inline_cons.mpr ⟨⟨hf, everywhere_noField_onEach ih⟩, everywhere_nil⟩

/-- No field in a document has a directive of certain names. -/
def Fieldless (schema : List String) (d : Document) : Prop :=
  ∀ x ∈ d.definitions, Everywhere (NoField schema) x.selections

variable {d : Document} {e : Edit}

/-- No such field comes in when a document is edited. -/
theorem Fieldless.apply (h : Fieldless schema d) (he : Leaves e false names) :
    Fieldless schema (e.apply d) := by
  intro x hx
  rw [Edit.apply, he.definitions] at hx
  obtain ⟨y, hy, rfl⟩ := List.mem_map.mp hx
  cases y with
  | operation op => exact (he.operationLeftOf op).selections.everywhere_noField (h _ hy)
  | fragment f =>
    obtain ⟨set, hs, hset | ⟨ha, -⟩⟩ := (he.fragmentLeftOf f).selections
    · rw [Edit.onDefinition, Definition.selections, hset]
      exact hs.everywhere_noField (h _ hy)
    · cases ha

theorem Fieldless.dropEmptyFragments (h : Fieldless schema d) :
    Fieldless schema (dropEmptyFragments d) := by
  fun_induction Client.dropEmptyFragments d with
  | case1 d hd => exact h
  | case2 d hd ih =>
    have hrest : Fieldless schema
        ⟨d.definitions.filter fun x => !isFragmentOf (emptyFragments d) x⟩ :=
      fun x hx => h x (List.mem_filter.mp hx).1
    exact ih (hrest.apply (leaves_dropping _))

/-- Erasing the fields with certain directives leaves none. -/
theorem fieldless_eraseClientFields (schema : List String) (d : Document) :
    Fieldless schema (eraseClientFields schema d) := by
  unfold eraseClientFields
  split
  · rename_i hempty
    obtain rfl := List.isEmpty_iff.mp hempty
    intro x _ address path inner _ s _ f inner' _ a _ hn
    cases hn
  · have hpass : Fieldless schema ((dropping (isClientField schema)).apply d) := by
      intro x hx
      obtain ⟨y, -, rfl⟩ := List.mem_map.mp hx
      cases y <;> exact everywhere_noField_onEach fun s _ => everywhere_noField_onSelection s
    exact fun x hx => hpass.dropEmptyFragments x (List.mem_filter.mp hx).1

theorem fieldless_serverSide (s : Settings) (d : Document) :
    Fieldless s.clientSchemaDirectives (serverSide s d) :=
  (fieldless_eraseClientFields _ _).apply (leaves_stripping _)

/-- A document is clear of what is an instruction to the client. -/
structure Clear (s : Settings) (d : Document) : Prop where
  /-- No field at any depth is one that the client resolves. -/
  fields : Fieldless s.clientSchemaDirectives d
  /-- No selection at any depth has a directive that only the client knows. -/
  selections : ∀ x ∈ d.definitions,
    Everywhere (fun t => FreeOf s.clientOnlyDirectives t.directives) x.selections
  /-- No operation has one. -/
  operations : ∀ op ∈ d.operations, FreeOf s.clientOnlyDirectives op.directives
  /-- No variable has one. -/
  variableDefinitions : ∀ op ∈ d.operations, ∀ v ∈ op.variableDefinitions,
    FreeOf s.clientOnlyDirectives v.directives
  /-- No fragment has one. -/
  fragments : ∀ f ∈ d.fragments, FreeOf s.clientOnlyDirectives f.directives

theorem FragmentLeftOf.everywhere_freeOf {f' f : Fragment} (h : FragmentLeftOf asks names f' f) :
    Everywhere (fun t => FreeOf names t.directives) f'.selections := by
  obtain ⟨set, hs, hset | ⟨-, hset⟩⟩ := h.selections
  · rw [hset]
    exact hs.everywhere_freeOf
  · rw [hset]
    exact everywhere_leaf_cons.mpr ⟨by simp [FreeOf, Selection.directives, Field.plain],
      hs.everywhere_freeOf⟩

/-- What remains without the directives that only the client knows, and without the fields that the
client resolves, is clear. -/
theorem RemainsOf.clear {s : Settings} {op : Operation} {fs : List Fragment}
    (h : RemainsOf asks s.clientOnlyDirectives d op fs)
    (hd : Fieldless s.clientSchemaDirectives d) : Clear s d := by
  obtain ⟨op', fs', rfl, hop, hfs⟩ := h
  have hleft := exists_of_mem_sublistForall₂ hfs
  refine ⟨hd, ?_, ?_, ?_, ?_⟩
  · refine List.forall_mem_cons.mpr ⟨hop.selections.everywhere_freeOf, ?_⟩
    refine List.forall_mem_map.mpr fun f' hf' => ?_
    obtain ⟨f, -, hf⟩ := hleft f' hf'
    exact hf.everywhere_freeOf
  · rw [Document.operations_bundle, List.forall_mem_singleton, hop.directives]
    exact freeOf_spared _ _
  · rw [Document.operations_bundle, List.forall_mem_singleton, hop.variableDefinitions]
    exact List.forall_mem_map.mpr fun v _ => freeOf_spared _ _
  · rw [Document.fragments_bundle]
    intro f' hf'
    obtain ⟨f, -, hf⟩ := hleft f' hf'
    rw [hf.directives]
    exact freeOf_spared _ _

end Clear

/-- Every entry of the operation set of a project is clear of what is an instruction to the client.
It remains of the operation that it is named after and of fragments of the project: what is still
there has all its other directives, in order. -/
theorem annotations_stay_with_client {p : Project} {s : Settings} {set : OperationSet}
    (hset : (p.operationSet s).outcome = .ok set) {name : String} {d : Document}
    (hd : (name, d) ∈ set.entries) :
    Clear s d ∧ ∃ o ∈ p.operations, o.name = name ∧
      RemainsOf s.addTypename s.clientOnlyDirectives d o.operation p.fragmentList := by
  obtain h | ⟨o, ho, hname, b, hb, rfl⟩ := Project.exists_bundle_of_mem_bundles hset hd
  · cases h
  · obtain ⟨-, rfl⟩ := Project.bundle_eq_ok_iff.mp hb
    have hsub : (p.usedBy o.operation).Sublist p.fragmentList := List.filter_sublist
    have hr := remainsOf_serverSide s o.operation hsub
    exact ⟨hr.clear (fieldless_serverSide s _), o, ho, hname, hr⟩

/-- Directives stand on nodes of all kinds: those of the client's fields, those that only the client
knows, one that is both, and others, which stay. -/
theorem annotations_stay_with_client_overlapping : ∃ sources p s set d,
    sources = [("q", "query Q($v: Int @a @k(n: 1)) @k @a { x @k @a @k(n: 2) { y @c z @b w } ...F @c }"),
      ("f", "fragment F on T @a @k { f @k { ... @a @c { g } } h @c }")] ∧
    s = { clientOnlyDirectives := ["a", "b"], clientSchemaDirectives := ["b", "c"] } ∧
    (Project.ofSources sources).outcome = .ok p ∧ (p.operationSet s).outcome = .ok set ∧
      ("Q", d) ∈ set.entries ∧
      d.print = "query Q($v:Int@k(n:1))@k{x@k@k(n:2){__typename w}...F@c}" ++
        "fragment F on T@k{__typename f@k{__typename...@c{g}}}" ∧
      Clear s d ∧ ∃ o ∈ p.operations, o.name = "Q" ∧
        RemainsOf s.addTypename s.clientOnlyDirectives d o.operation p.fragmentList := by
  have hrun : ((Project.ofSources
      [("q", "query Q($v: Int @a @k(n: 1)) @k @a { x @k @a @k(n: 2) { y @c z @b w } ...F @c }"),
        ("f", "fragment F on T @a @k { f @k { ... @a @c { g } } h @c }")]).outcome.bind fun p =>
      (p.operationSet { clientOnlyDirectives := ["a", "b"],
                        clientSchemaDirectives := ["b", "c"] }).outcome).map
        (fun set => set.entries.map fun e => (e.1, e.2.print)) =
      .ok [("Q", "query Q($v:Int@k(n:1))@k{x@k@k(n:2){__typename w}...F@c}" ++
        "fragment F on T@k{__typename f@k{__typename...@c{g}}}")] := by decide +kernel
  obtain ⟨p, set, hp, hset, hprint, hentries⟩ := Project.exists_operationSet_of_map hrun
    fun _ _ _ _ hprint => List.map_eq_cons_iff.mp hprint
  obtain ⟨⟨name, d⟩, rest, hentries, hd, -⟩ := hentries
  obtain ⟨rfl, hd⟩ := Prod.mk.inj hd
  have hmem : ("Q", d) ∈ set.entries := hentries ▸ List.mem_cons_self
  exact ⟨_, p, _, set, d, rfl, rfl, hp, hset, hmem, hd, annotations_stay_with_client hset hmem⟩

end Safelist.Client
