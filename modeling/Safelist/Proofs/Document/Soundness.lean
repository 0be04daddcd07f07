import Safelist.Document.Reading
import Safelist.Proofs.Document.Moves
import Safelist.Proofs.Lexical.Written

/-!
# What the grammar lets through

A place of the grammar is sound when everything read so far can be written and
holds no empty selection set. Every well-formed lexeme leads from a sound place
to a sound place or completes a definition that is well formed, so what is read
from a text is a well-formed document.
-/

namespace Safelist

open Lexical

namespace Grammar

/-- What an open selection set belongs to and what it holds is well formed; it may still be
empty itself. -/
def Block.Sound : Block → Prop
  | .operation op => op.WellSpelled ∧ ∀ s ∈ op.selections, s.Filled
  | .fragment f => f.WellSpelled ∧ ∀ s ∈ f.selections, s.Filled
  | .nested outer f set =>
    outer.Sound ∧ f.WellSpelled ∧ (∀ s ∈ set, s.WellSpelled) ∧ ∀ s ∈ set, s.Filled
  | .inline outer head set =>
    outer.Sound ∧ head.WellSpelled ∧ (∀ s ∈ set, s.WellSpelled) ∧ ∀ s ∈ set, s.Filled

/-- What bears directives is well formed so far. -/
def Site.Sound : Site → Prop
  | .operation op => (Block.operation op).Sound
  | .variableOf op v => (Block.operation op).Sound ∧ v.WellSpelled
  | .fragment f => (Block.fragment f).Sound
  | .field block f => block.Sound ∧ f.WellSpelled
  | .spread block s => block.Sound ∧ s.WellSpelled
  | .inline block head => block.Sound ∧ head.WellSpelled

/-- What is given arguments is well formed so far. -/
def Holder.Sound : Holder → Prop
  | .field block f => block.Sound ∧ f.WellSpelled
  | .directive site d => site.Sound ∧ d.WellSpelled site.isConstant

/-- What a value is read for is well formed so far. -/
def Slot.Sound : Slot → Prop
  | .argument holder name => holder.Sound ∧ IsName name
  | .defaultOf op name type => (Block.operation op).Sound ∧ IsName name ∧ type.WellSpelled
  | .item outer items => outer.Sound ∧ ∀ v ∈ items, v.WellSpelled outer.isConstant
  | .member outer members name =>
    outer.Sound ∧ (∀ m ∈ members, IsName m.1) ∧
      (∀ m ∈ members, m.2.WellSpelled outer.isConstant) ∧ IsName name

/-- Everything read so far is well formed. -/
def Focus.Sound : Focus → Prop
  | .between => True
  | .operationKeyword op => (Block.operation op).Sound
  | .operationName op => (Block.operation op).Sound
  | .variableDefinitions op => (Block.operation op).Sound
  | .variableSign op => (Block.operation op).Sound
  | .variableName op name => (Block.operation op).Sound ∧ IsName name
  | .typeStart op name _ => (Block.operation op).Sound ∧ IsName name
  | .typeEnd op name _ type marked =>
    (Block.operation op).Sound ∧ IsName name ∧ type.WellSpelled ∧
      (marked = false → type.isNonNull = false)
  | .fragmentKeyword => True
  | .fragmentName name => IsName name ∧ name ≠ "on"
  | .fragmentType name => IsName name ∧ name ≠ "on"
  | .site s => s.Sound
  | .directiveSign s => s.Sound
  | .directiveName s name => s.Sound ∧ IsName name
  | .arguments holder => holder.Sound
  | .argumentName holder name => holder.Sound ∧ IsName name
  | .value slot => slot.Sound
  | .variableUse slot => slot.Sound ∧ slot.isConstant = false
  | .list outer items => outer.Sound ∧ ∀ v ∈ items, v.WellSpelled outer.isConstant
  | .object outer members =>
    outer.Sound ∧ (∀ m ∈ members, IsName m.1) ∧
      ∀ m ∈ members, m.2.WellSpelled outer.isConstant
  | .memberName outer members name =>
    outer.Sound ∧ (∀ m ∈ members, IsName m.1) ∧
      (∀ m ∈ members, m.2.WellSpelled outer.isConstant) ∧ IsName name
  | .block b => b.Sound
  | .fieldStart b name => b.Sound ∧ IsName name
  | .aliasColon b aliasName => b.Sound ∧ IsName aliasName
  | .fieldName b f => b.Sound ∧ f.WellSpelled
  | .dots b => b.Sound
  | .inlineType b => b.Sound

/-- A move leads to a sound place, or completes a well-formed definition. -/
def Move.Sound : Move → Prop
  | .to f => f.Sound
  | .complete x => x.WellSpelled ∧ FilledSet x.selections

/-- Everything read so far is well formed, and every definition is whole. -/
structure State.Sound (s : State) : Prop where
  /-- The definitions are well formed. -/
  definitions : ∀ x ∈ s.definitions, x.WellSpelled ∧ FilledSet x.selections
  /-- What is open is well formed so far. -/
  focus : s.focus.Sound

theorem Block.Sound.add {block : Block} (h : block.Sound) {s : Selection} (hs : s.WellSpelled)
    (hf : s.Filled) : (block.add s).Sound := by
  replace hs := List.forall_mem_singleton.mpr hs
  replace hf := List.forall_mem_singleton.mpr hf
  cases block with
  | operation op =>
    exact ⟨{ h.1 with selections := List.forall_mem_append.mpr ⟨h.1.selections, hs⟩ },
      List.forall_mem_append.mpr ⟨h.2, hf⟩⟩
  | fragment f =>
    exact ⟨{ h.1 with selections := List.forall_mem_append.mpr ⟨h.1.selections, hs⟩ },
      List.forall_mem_append.mpr ⟨h.2, hf⟩⟩
  | nested outer f set =>
    exact ⟨h.1, h.2.1, List.forall_mem_append.mpr ⟨h.2.2.1, hs⟩,
      List.forall_mem_append.mpr ⟨h.2.2.2, hf⟩⟩
  | inline outer head set =>
    exact ⟨h.1, h.2.1, List.forall_mem_append.mpr ⟨h.2.2.1, hs⟩,
      List.forall_mem_append.mpr ⟨h.2.2.2, hf⟩⟩

/-- Closing a set with a selection in it leaves nothing empty. -/
theorem Block.Sound.close {block : Block} (h : block.Sound) (hne : block.selections ≠ []) :
    block.close.Sound := by
  cases block with
  | operation op => exact ⟨h.1, hne, h.2⟩
  | fragment f => exact ⟨h.1, hne, h.2⟩
  | nested outer f set => exact h.1.add (.nested h.2.1 h.2.2.1) (.nested f hne h.2.2.2)
  | inline outer head set => exact h.1.add (.inline h.2.1 h.2.2.1) (.inline head hne h.2.2.2)

theorem Block.Sound.next {block : Block} (h : block.Sound) {l : Lexeme} (hl : l.WellFormed)
    {m : Move} (hm : block.next l = some m) : m.Sound := by
  unfold Block.next at hm
  split at hm
  · cases hm
    exact ⟨h, hl⟩
  · cases hm
    exact h
  · split at hm
    · cases hm
    · rename_i hne
      cases hm
      exact h.close (by simpa using hne)
  · cases hm

theorem Site.Sound.attach {site : Site} (h : site.Sound) {d : Directive}
    (hd : d.WellSpelled site.isConstant) : (site.attach d).Sound := by
  replace hd := List.forall_mem_singleton.mpr hd
  cases site with
  | operation op =>
    exact ⟨{ h.1 with directives := List.forall_mem_append.mpr ⟨h.1.directives, hd⟩ }, h.2⟩
  | variableOf op v =>
    exact ⟨h.1, { h.2 with directives := List.forall_mem_append.mpr ⟨h.2.directives, hd⟩ }⟩
  | fragment f =>
    exact ⟨{ h.1 with directives := List.forall_mem_append.mpr ⟨h.1.directives, hd⟩ }, h.2⟩
  | field block f =>
    exact ⟨h.1, { h.2 with directives := List.forall_mem_append.mpr ⟨h.2.directives, hd⟩ }⟩
  | spread block s =>
    exact ⟨h.1, { h.2 with directives := List.forall_mem_append.mpr ⟨h.2.directives, hd⟩ }⟩
  | inline block head =>
    exact ⟨h.1, { h.2 with directives := List.forall_mem_append.mpr ⟨h.2.directives, hd⟩ }⟩

theorem Holder.Sound.attach {holder : Holder} (h : holder.Sound) {a : Argument}
    (ha : a.WellSpelled holder.isConstant) : (holder.attach a).Sound := by
  replace ha := List.forall_mem_singleton.mpr ha
  cases holder with
  | field block f =>
    exact ⟨h.1, { h.2 with arguments := List.forall_mem_append.mpr ⟨h.2.arguments, ha⟩ }⟩
  | directive site d =>
    exact ⟨h.1, { h.2 with arguments := List.forall_mem_append.mpr ⟨h.2.arguments, ha⟩ }⟩

theorem Holder.Sound.close {holder : Holder} (h : holder.Sound) : holder.close.Sound := by
  cases holder with
  | field block f => exact h
  | directive site d => exact h.1.attach h.2

theorem nextVariable_sound {op : Operation} (h : (Block.operation op).Sound) {l : Lexeme}
    {m : Move} (hm : nextVariable op l = some m) : m.Sound := by
  unfold nextVariable at hm
  split at hm
  · cases hm
    exact h
  · split at hm <;> cases hm
    exact h
  · cases hm

/-- One more variable is declared. -/
theorem Block.Sound.declare {op : Operation} (h : (Block.operation op).Sound)
    {v : VariableDefinition} (hv : v.WellSpelled) : (Block.operation (op.declare v)).Sound := by
  have hvs := List.forall_mem_append.mpr
    ⟨h.1.variableDefinitions, List.forall_mem_singleton.mpr hv⟩
  exact ⟨{ h.1 with variableDefinitions := hvs }, h.2⟩

theorem Site.Sound.next {site : Site} (h : site.Sound) {l : Lexeme} (hl : l.WellFormed)
    {m : Move} (hm : site.next l = some m) : m.Sound := by
  unfold Site.next at hm
  split at hm
  · cases hm
    exact h
  · cases site with
    | operation op =>
      simp only at hm
      split at hm <;> cases hm
      exact h
    | variableOf op v => exact nextVariable_sound (h.1.declare h.2) hm
    | fragment f =>
      simp only at hm
      split at hm <;> cases hm
      exact h
    | field block f =>
      simp only at hm
      split at hm
      · cases hm
        exact ⟨h.1, h.2, by simp, by simp⟩
      · exact (h.1.add (.leaf h.2) (.leaf f)).next hl hm
    | spread block s => exact (h.1.add (.spread h.2) (.spread s)).next hl hm
    | inline block head =>
      simp only at hm
      split at hm <;> cases hm
      exact ⟨h.1, h.2, by simp, by simp⟩

theorem Slot.Sound.fill {slot : Slot} (h : slot.Sound) {v : Value}
    (hv : v.WellSpelled slot.isConstant) : (slot.fill v).Sound := by
  cases slot with
  | argument holder name => exact h.1.attach (a := ⟨name, v⟩) ⟨h.2, hv⟩
  | defaultOf op name type =>
    refine ⟨h.1, h.2.1, h.2.2, ?_, by simp⟩
    rintro _ ⟨rfl⟩
    exact hv
  | item outer items =>
    exact ⟨h.1, List.forall_mem_append.mpr ⟨h.2, List.forall_mem_singleton.mpr hv⟩⟩
  | member outer members name =>
    exact ⟨h.1, List.forall_mem_append.mpr ⟨h.2.1, List.forall_mem_singleton.mpr h.2.2.2⟩,
      List.forall_mem_append.mpr ⟨h.2.2.1, List.forall_mem_singleton.mpr hv⟩⟩

/-- A name stands for a value that can be written. -/
theorem wellSpelled_valueOfName {name : String} (h : IsName name) (constant : Bool) :
    (valueOfName name).WellSpelled constant := by
  unfold valueOfName
  split
  · exact .boolean true
  · split
    · exact .boolean false
    · split
      · exact .null
      · refine .enum h ?_
        simp [reservedValues, *]

theorem Slot.Sound.next {slot : Slot} (h : slot.Sound) {l : Lexeme} (hl : l.WellFormed)
    {m : Move} (hm : slot.next l = some m) : m.Sound := by
  unfold Slot.next at hm
  split at hm
  · cases hm
    exact ⟨h, by simp⟩
  · cases hm
    exact ⟨h, by simp, by simp⟩
  · split at hm
    · cases hm
    · rename_i hc
      cases hm
      exact ⟨h, by simpa using hc⟩
  · cases hm
    exact h.fill (.int hl)
  · cases hm
    exact h.fill (.float hl)
  · cases hm
    exact h.fill (v := .string _ false) (.string _ _)
  · cases hm
    exact h.fill (v := .string _ true) (.string _ _)
  · cases hm
    exact h.fill (wellSpelled_valueOfName hl _)
  · cases hm

theorem afterOperationName_sound {op : Operation} (h : (Block.operation op).Sound) {l : Lexeme}
    (hl : l.WellFormed) {m : Move} (hm : afterOperationName op l = some m) : m.Sound := by
  unfold afterOperationName at hm
  split at hm
  · cases hm
    exact h
  · have hs : (Site.operation op).Sound := h
    exact hs.next hl hm

theorem afterFieldName_sound {block : Block} (h : block.Sound) {f : Field} (hf : f.WellSpelled)
    {l : Lexeme} (hl : l.WellFormed) {m : Move} (hm : afterFieldName block f l = some m) :
    m.Sound := by
  unfold afterFieldName at hm
  split at hm
  · cases hm
    exact ⟨h, hf⟩
  · have hs : (Site.field block f).Sound := ⟨h, hf⟩
    exact hs.next hl hm

/-- An operation of which nothing is known misspells nothing. -/
theorem wellSpelled_bareOperation (kind : OperationKind) : (bareOperation kind).WellSpelled :=
  ⟨by simp [bareOperation], by simp [bareOperation], by simp [bareOperation],
    by simp [bareOperation]⟩

section Phrases

variable {f : Focus} {l : Lexeme} {m : Move}

theorem Focus.Sound.next_definitions (h : f.Sound) (hf : f.phrase = .definitions)
    (hl : l.WellFormed) (hm : f.next l = some m) : m.Sound := by
  cases f <;> cases hf
  case between =>
    obtain ⟨rfl, rfl⟩ | ⟨word, kind, rfl, hk, rfl⟩ | ⟨rfl, rfl⟩ := next_between_cases hm
    · exact ⟨wellSpelled_bareOperation _, by simp [bareOperation]⟩
    · exact ⟨wellSpelled_bareOperation _, by simp [bareOperation]⟩
    · trivial

theorem Focus.Sound.next_operation (h : f.Sound) (hf : f.phrase = .operation)
    (hl : l.WellFormed) (hm : f.next l = some m) : m.Sound := by
  cases f <;> cases hf
  case operationKeyword op =>
    obtain ⟨name, rfl, rfl⟩ | hm := next_operationKeyword_cases hm
    · exact ⟨{ h.1 with name := by simpa [Lexeme.WellFormed] using hl }, h.2⟩
    · exact afterOperationName_sound h hl hm
  case operationName op => exact afterOperationName_sound h hl hm

theorem Focus.Sound.next_declarations (h : f.Sound) (hf : f.phrase = .declarations)
    (hl : l.WellFormed) (hm : f.next l = some m) : m.Sound := by
  cases f <;> cases hf
  case variableDefinitions op => exact nextVariable_sound h hm
  case variableSign op =>
    cases l <;> cases hm
    exact ⟨h, hl⟩
  case variableName op name =>
    obtain ⟨rfl, rfl⟩ := next_variableName_cases hm
    exact h
  case typeStart op name depth =>
    obtain ⟨rfl, rfl⟩ | ⟨type, rfl, rfl⟩ := next_typeStart_cases hm
    · exact h
    · exact ⟨h.1, h.2, .named hl, by simp [TypeRef.isNonNull]⟩
  case typeEnd op name depth type marked =>
    obtain ⟨rfl, rfl, rfl⟩ | ⟨d, rfl, rfl, rfl⟩ | ⟨rfl, rfl, rfl⟩ | ⟨rfl, hsite⟩ :=
      next_typeEnd_cases hm
    · exact ⟨h.1, h.2.1, .nonNull h.2.2.1 (h.2.2.2 rfl), by simp⟩
    · exact ⟨h.1, h.2.1, .list h.2.2.1, by simp [TypeRef.isNonNull]⟩
    · exact ⟨h.1, h.2.1, h.2.2.1⟩
    · have hs : (Site.variableOf op ⟨name, type, none, []⟩).Sound :=
        ⟨h.1, h.2.1, h.2.2.1, by simp, by simp⟩
      exact hs.next hl hsite

theorem Focus.Sound.next_fragment (h : f.Sound) (hf : f.phrase = .fragment)
    (hl : l.WellFormed) (hm : f.next l = some m) : m.Sound := by
  cases f <;> cases hf
  case fragmentKeyword =>
    obtain ⟨name, hne, rfl, rfl⟩ := next_fragmentKeyword_cases hm
    exact ⟨hl, hne⟩
  case fragmentName name =>
    obtain ⟨rfl, rfl⟩ := next_fragmentName_cases hm
    exact h
  case fragmentType name =>
    cases l <;> cases hm
    exact ⟨⟨h.1, h.2, hl, by simp, by simp⟩, by simp⟩

theorem Focus.Sound.next_directives (h : f.Sound) (hf : f.phrase = .directives)
    (hl : l.WellFormed) (hm : f.next l = some m) : m.Sound := by
  cases f <;> cases hf
  case site s => exact Site.Sound.next h hl hm
  case directiveSign s =>
    cases l <;> cases hm
    exact ⟨h, hl⟩
  case directiveName s name =>
    obtain ⟨rfl, rfl⟩ | hm := next_directiveName_cases hm
    · exact ⟨h.1, h.2, by simp⟩
    · exact (h.1.attach (d := ⟨name, []⟩) ⟨h.2, by simp⟩).next hl hm

theorem Focus.Sound.next_arguments (h : f.Sound) (hf : f.phrase = .arguments)
    (hl : l.WellFormed) (hm : f.next l = some m) : m.Sound := by
  cases f <;> cases hf
  case arguments holder =>
    obtain ⟨name, rfl, rfl⟩ | ⟨-, rfl, rfl⟩ := next_arguments_cases hm
    · exact ⟨h, hl⟩
    · exact Holder.Sound.close h
  case argumentName holder name =>
    obtain ⟨rfl, rfl⟩ := next_argumentName_cases hm
    exact h

theorem Focus.Sound.next_values (h : f.Sound) (hf : f.phrase = .values)
    (hl : l.WellFormed) (hm : f.next l = some m) : m.Sound := by
  cases f <;> cases hf
  case value slot => exact Slot.Sound.next h hl hm
  case variableUse slot =>
    cases l <;> cases hm
    exact h.1.fill (.var hl h.2)
  case list outer items =>
    obtain ⟨rfl, rfl⟩ | hm := next_list_cases hm
    · exact h.1.fill (.list h.2)
    · have hs : (Slot.item outer items).Sound := h
      exact hs.next hl hm
  case object outer members =>
    obtain ⟨rfl, rfl⟩ | ⟨name, rfl, rfl⟩ := next_object_cases hm
    · exact h.1.fill (.object h.2.1 h.2.2)
    · exact ⟨h.1, h.2.1, h.2.2, hl⟩
  case memberName outer members name =>
    obtain ⟨rfl, rfl⟩ := next_memberName_cases hm
    exact h

theorem Focus.Sound.next_selections (h : f.Sound) (hf : f.phrase = .selections)
    (hl : l.WellFormed) (hm : f.next l = some m) : m.Sound := by
  cases f <;> cases hf
  case block b => exact Block.Sound.next h hl hm
  case fieldStart b name =>
    obtain ⟨rfl, rfl⟩ | hm := next_fieldStart_cases hm
    · exact h
    · have hf : (Field.plain name).WellSpelled :=
        ⟨by simp [Field.plain], h.2, by simp [Field.plain], by simp [Field.plain]⟩
      exact afterFieldName_sound h.1 hf hl hm
  case aliasColon b aliasName =>
    cases l <;> cases hm
    exact ⟨h.1, by simpa using h.2, hl, by simp, by simp⟩
  case fieldName b f => exact afterFieldName_sound h.1 h.2 hl hm
  case dots b =>
    obtain ⟨rfl, rfl⟩ | ⟨name, hne, rfl, rfl⟩ | hm := next_dots_cases hm
    · exact h
    · exact ⟨h, hl, hne, by simp⟩
    · have hs : (Site.inline b ⟨none, []⟩).Sound := ⟨h, by simp, by simp⟩
      exact hs.next hl hm
  case inlineType b =>
    cases l <;> cases hm
    exact ⟨h, by simpa [Lexeme.WellFormed] using hl, by simp⟩

/-- A well-formed lexeme leads from a sound place to a sound place, or completes a definition
that is well formed. -/
theorem Focus.Sound.next (h : f.Sound) (hl : l.WellFormed) (hm : f.next l = some m) : m.Sound := by
  cases hf : f.phrase with
  | definitions => exact h.next_definitions hf hl hm
  | operation => exact h.next_operation hf hl hm
  | declarations => exact h.next_declarations hf hl hm
  | fragment => exact h.next_fragment hf hl hm
  | directives => exact h.next_directives hf hl hm
  | arguments => exact h.next_arguments hf hl hm
  | values => exact h.next_values hf hl hm
  | selections => exact h.next_selections hf hl hm

end Phrases

/-- Every lexeme that can stand somewhere keeps the state sound. -/
theorem State.Sound.next {s : State} (h : s.Sound) {l : Lexeme} (hl : l.WellFormed) {t : State}
    (ht : s.next l = some t) : t.Sound := by
  unfold State.next at ht
  split at ht
  · cases ht
  · rename_i hm
    cases ht
    exact ⟨h.definitions, h.focus.next hl hm⟩
  · rename_i hm
    cases ht
    exact ⟨List.forall_mem_append.mpr
      ⟨h.definitions, List.forall_mem_singleton.mpr (h.focus.next hl hm)⟩, trivial⟩

/-- Whatever is read keeps the state sound. -/
theorem State.Sound.read {ls : List Lexeme} {s : State} (h : s.Sound)
    (hls : ∀ l ∈ ls, l.WellFormed) {t : State} (ht : s.read ls = some t) : t.Sound := by
  induction ls generalizing s with
  | nil =>
    cases ht
    exact h
  | cons l ls ih =>
    rw [List.forall_mem_cons] at hls
    obtain ⟨u, hu, hut⟩ := Option.bind_eq_some_iff.mp ht
    exact ih (h.next hls.1 hu) hls.2 hut

/-- What has been read when a text may end is a well-formed document. -/
theorem State.Sound.wellFormed {s : State} (h : s.Sound) {d : Document}
    (hd : s.document? = some d) : d.WellFormed := by
  unfold State.document? at hd
  split at hd
  · split at hd
    · cases hd
    · rename_i hne
      cases hd
      exact ⟨by simpa using hne, fun x hx => (h.definitions x hx).1,
        fun x hx => (h.definitions x hx).2⟩
  · cases hd

end Grammar

namespace Document

/-- What is read from lexemes that can be written is a well-formed document. -/
theorem wellFormed_of_ofTokens {stream : TokenStream}
    (hl : ∀ t ∈ stream.tokens, t.lexeme.WellFormed)
    {d : Document} (hd : ofTokens stream = .ok d) : d.WellFormed := by
  obtain ⟨t, ht, htd⟩ := Grammar.State.run_eq_ok_iff.mp hd
  have hs : Grammar.State.initial.Sound := ⟨by simp [Grammar.State.initial], trivial⟩
  refine (hs.read ?_ ht).wellFormed htd
  simpa using hl

/-- Every document that is read from a text is well formed. -/
theorem wellFormed_of_parse {source : String} {d : Document} (hd : parse source = .ok d) :
    d.WellFormed := by
  unfold parse at hd
  cases hs : Lexer.tokenize source with
  | error e => simp [hs, bind, Except.bind] at hd
  | ok stream =>
    rw [hs] at hd
    exact wellFormed_of_ofTokens (Lexer.wellFormed_of_scan hs) hd

end Document

end Safelist
