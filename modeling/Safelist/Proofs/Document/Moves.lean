import Safelist.Proofs.Document.Recognition

/-!
# What a lexeme can do at a place

A place of the grammar stands in one phrase. Where several lexemes can stand at a place, each
is told with what it does there, so that what the moves of the grammar keep can be shown
for one phrase after another.
-/

namespace Safelist.Grammar

open Lexical

/-- The phrases that documents are made of. -/
inductive Phrase where
  /-- One definition after another. -/
  | definitions
  /-- The head of an operation. -/
  | operation
  /-- The declarations of variables. -/
  | declarations
  /-- The head of a fragment. -/
  | fragment
  /-- Directives. -/
  | directives
  /-- Arguments. -/
  | arguments
  /-- Values. -/
  | values
  /-- The selections of a set. -/
  | selections

/-- The phrase that a place stands in. -/
def Focus.phrase : Focus → Phrase
  | .between => .definitions
  | .operationKeyword _ => .operation
  | .operationName _ => .operation
  | .variableDefinitions _ => .declarations
  | .variableSign _ => .declarations
  | .variableName _ _ => .declarations
  | .typeStart _ _ _ => .declarations
  | .typeEnd _ _ _ _ _ => .declarations
  | .fragmentKeyword => .fragment
  | .fragmentName _ => .fragment
  | .fragmentType _ => .fragment
  | .site _ => .directives
  | .directiveSign _ => .directives
  | .directiveName _ _ => .directives
  | .arguments _ => .arguments
  | .argumentName _ _ => .arguments
  | .value _ => .values
  | .variableUse _ => .values
  | .list _ _ => .values
  | .object _ _ => .values
  | .memberName _ _ _ => .values
  | .block _ => .selections
  | .fieldStart _ _ => .selections
  | .aliasColon _ _ => .selections
  | .fieldName _ _ => .selections
  | .dots _ => .selections
  | .inlineType _ => .selections

variable {l : Lexeme} {m : Move} {op : Operation} {b : Block} {site : Site} {holder : Holder}
  {outer : Slot} {name : String}

theorem next_between_cases (h : Focus.between.next l = some m) :
    (l = .mark .openBrace ∧ m = .to (.block (.operation (bareOperation .query)))) ∨
      (∃ word kind, l = .name word ∧ OperationKind.ofKeyword? word = some kind ∧
        m = .to (.operationKeyword (bareOperation kind))) ∨
      l = .name "fragment" ∧ m = .to .fragmentKeyword := by
  cases l with
  | mark k =>
    cases k <;> cases h
    exact .inl ⟨rfl, rfl⟩
  | name word =>
    rw [Focus.next] at h
    cases hk : OperationKind.ofKeyword? word with
    | some kind =>
      rw [hk] at h
      cases h
      exact .inr (.inl ⟨word, kind, rfl, hk, rfl⟩)
    | none =>
      rw [hk] at h
      dsimp only at h
      split at h <;> cases h
      rename_i hw
      exact .inr (.inr ⟨congrArg _ hw, rfl⟩)
  | _ => cases h

theorem next_operationKeyword_cases (h : (Focus.operationKeyword op).next l = some m) :
    (∃ name, l = .name name ∧ m = .to (.operationName { op with name := some name })) ∨
      afterOperationName op l = some m := by
  cases l with
  | name name =>
    cases h
    exact .inl ⟨name, rfl, rfl⟩
  | _ => exact .inr h

theorem next_variableName_cases (h : (Focus.variableName op name).next l = some m) :
    l = .mark .colon ∧ m = .to (.typeStart op name 0) := by
  cases l with
  | mark k =>
    cases k <;> cases h
    exact ⟨rfl, rfl⟩
  | _ => cases h

theorem next_typeStart_cases {depth : Nat} (h : (Focus.typeStart op name depth).next l = some m) :
    (l = .mark .openBracket ∧ m = .to (.typeStart op name (depth + 1))) ∨
      ∃ type, l = .name type ∧ m = .to (.typeEnd op name depth (.named type) false) := by
  cases l with
  | mark k =>
    cases k <;> cases h
    exact .inl ⟨rfl, rfl⟩
  | name type =>
    cases h
    exact .inr ⟨type, rfl, rfl⟩
  | _ => cases h

/-- Behind a type outside all brackets, other lexemes than an exclamation mark and an equals sign
do what they do behind the whole declaration. -/
theorem next_typeEnd {type : TypeRef} {marked : Bool} (hb : ¬(marked = false ∧ l = .mark .bang))
    (he : l ≠ .mark .equals) : (Focus.typeEnd op name 0 type marked).next l =
      (Focus.site (.variableOf op ⟨name, type, none, []⟩)).next l := by
  cases l with
  | mark k =>
    cases k <;> cases marked <;> first
      | rfl
      | exact absurd ⟨rfl, rfl⟩ hb
      | exact absurd rfl he
  | _ => cases marked <;> rfl

theorem next_typeEnd_cases {depth : Nat} {type : TypeRef} {marked : Bool}
    (h : (Focus.typeEnd op name depth type marked).next l = some m) :
    (marked = false ∧ l = .mark .bang ∧
        m = .to (.typeEnd op name depth (.nonNull type) true)) ∨
      (∃ d, depth = d + 1 ∧ l = .mark .closeBracket ∧
        m = .to (.typeEnd op name d (.list type) false)) ∨
      (depth = 0 ∧ l = .mark .equals ∧ m = .to (.value (.defaultOf op name type))) ∨
      depth = 0 ∧ (Site.variableOf op ⟨name, type, none, []⟩).next l = some m := by
  by_cases hb : marked = false ∧ l = .mark .bang
  · obtain ⟨rfl, rfl⟩ := hb
    cases depth <;> cases h <;> exact .inl ⟨rfl, rfl, rfl⟩
  cases depth with
  | zero =>
    by_cases he : l = .mark .equals
    · subst he
      cases marked <;> cases h <;> exact .inr (.inr (.inl ⟨rfl, rfl, rfl⟩))
    · rw [next_typeEnd hb he] at h
      exact .inr (.inr (.inr ⟨rfl, h⟩))
  | succ d =>
    by_cases hc : l = .mark .closeBracket
    · subst hc
      rw [next_closeBracket] at h
      cases h
      exact .inr (.inl ⟨d, rfl, rfl, rfl⟩)
    · cases l with
      | mark k => cases k <;> cases marked <;> cases h <;> simp at hb hc
      | _ => cases marked <;> cases h

theorem next_fragmentKeyword_cases (h : Focus.fragmentKeyword.next l = some m) :
    ∃ name, name ≠ "on" ∧ l = .name name ∧ m = .to (.fragmentName name) := by
  cases l with
  | mark k => cases k <;> cases h
  | name name =>
    replace h : (if name = "on" then none else some (.to (.fragmentName name))) = some m := h
    split at h <;> cases h
    exact ⟨name, by assumption, rfl, rfl⟩
  | _ => cases h

theorem next_fragmentName_cases (h : (Focus.fragmentName name).next l = some m) :
    l = .name "on" ∧ m = .to (.fragmentType name) := by
  cases l with
  | mark k => cases k <;> cases h
  | name word =>
    replace h : (if word = "on" then some (.to (.fragmentType name)) else none) = some m := h
    split at h <;> cases h
    rename_i hw
    exact ⟨congrArg _ hw, rfl⟩
  | _ => cases h

theorem next_directiveName_cases (h : (Focus.directiveName site name).next l = some m) :
    (l = .mark .openParen ∧ m = .to (.arguments (.directive site ⟨name, []⟩))) ∨
      (site.attach ⟨name, []⟩).next l = some m := by
  by_cases hl : l = .mark .openParen
  · subst hl
    cases h
    exact .inl ⟨rfl, rfl⟩
  · rw [next_directiveName hl] at h
    exact .inr h

theorem next_arguments_cases (h : (Focus.arguments holder).next l = some m) :
    (∃ name, l = .name name ∧ m = .to (.argumentName holder name)) ∨
      holder.arguments ≠ [] ∧ l = .mark .closeParen ∧ m = .to (.site holder.close) := by
  cases l with
  | mark k =>
    by_cases hk : k = .closeParen
    · subst hk
      replace h : (if holder.arguments.isEmpty then none else some (.to (.site holder.close))) =
        some m := h
      split at h <;> cases h
      rename_i hne
      exact .inr ⟨by simpa using hne, rfl, rfl⟩
    · cases k <;> first | cases h | exact absurd rfl hk
  | name name =>
    cases h
    exact .inl ⟨name, rfl, rfl⟩
  | _ => cases h

theorem next_argumentName_cases (h : (Focus.argumentName holder name).next l = some m) :
    l = .mark .colon ∧ m = .to (.value (.argument holder name)) := by
  cases l with
  | mark k =>
    cases k <;> cases h
    exact ⟨rfl, rfl⟩
  | _ => cases h

theorem next_list_cases {items : List Value} (h : (Focus.list outer items).next l = some m) :
    (l = .mark .closeBracket ∧ m = .to (outer.fill (.list items))) ∨
      (Slot.item outer items).next l = some m := by
  by_cases hl : l = .mark .closeBracket
  · subst hl
    cases h
    exact .inl ⟨rfl, rfl⟩
  · rw [next_list _ _ hl] at h
    exact .inr h

theorem next_object_cases {members : List (String × Value)}
    (h : (Focus.object outer members).next l = some m) :
    (l = .mark .closeBrace ∧ m = .to (outer.fill (.object members))) ∨
      ∃ name, l = .name name ∧ m = .to (.memberName outer members name) := by
  cases l with
  | mark k =>
    cases k <;> cases h
    exact .inl ⟨rfl, rfl⟩
  | name name =>
    cases h
    exact .inr ⟨name, rfl, rfl⟩
  | _ => cases h

theorem next_memberName_cases {members : List (String × Value)}
    (h : (Focus.memberName outer members name).next l = some m) :
    l = .mark .colon ∧ m = .to (.value (.member outer members name)) := by
  cases l with
  | mark k =>
    cases k <;> cases h
    exact ⟨rfl, rfl⟩
  | _ => cases h

theorem next_fieldStart_cases (h : (Focus.fieldStart b name).next l = some m) :
    (l = .mark .colon ∧ m = .to (.aliasColon b name)) ∨
      afterFieldName b (.plain name) l = some m := by
  by_cases hl : l = .mark .colon
  · subst hl
    cases h
    exact .inl ⟨rfl, rfl⟩
  · rw [next_fieldStart hl] at h
    exact .inr h

theorem next_dots_cases (h : (Focus.dots b).next l = some m) :
    (l = .name "on" ∧ m = .to (.inlineType b)) ∨
      (∃ name, name ≠ "on" ∧ l = .name name ∧ m = .to (.site (.spread b ⟨name, []⟩))) ∨
      (Site.inline b ⟨none, []⟩).next l = some m := by
  cases l with
  | name name =>
    replace h : (if name = "on" then some (.to (.inlineType b))
      else some (.to (.site (.spread b ⟨name, []⟩)))) = some m := h
    split at h <;> cases h
    · rename_i hw
      exact .inl ⟨congrArg _ hw, rfl⟩
    · exact .inr (.inl ⟨name, by assumption, rfl, rfl⟩)
  | _ => exact .inr (.inr h)

end Safelist.Grammar
