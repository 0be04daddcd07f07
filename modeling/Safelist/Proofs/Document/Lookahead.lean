import Safelist.Proofs.Document.Recognition

/-!
# What one lexeme of lookahead tells

A reader that looks at the next lexeme can tell two things before it goes on. Where only one
thing may stand, anything else is missed: it leads nowhere, and the error names what was
asked for. And a place may do the same as another one with every lexeme but a few that the
reader has ruled out.
-/

namespace Safelist

open Lexical

namespace Grammar

/-- What is found, a lexeme or the end of the text, is not what a place asks for. -/
structure Focus.Misses (f : Focus) (what : Expected) (found : Option Lexeme) : Prop where
  /-- It leads nowhere. -/
  next : ∀ l, found = some l → f.next l = none
  /-- The error names what was asked for. -/
  error : ∀ p, f.error found p = .malformed p (.expected what found)

/-- Two places do the same with what is found. -/
structure Focus.Alike (f g : Focus) (found : Option Lexeme) : Prop where
  /-- A lexeme leads to the same place from both. -/
  next : ∀ l, found = some l → f.next l = g.next l
  /-- If it leads nowhere, the error is the same. -/
  error : ∀ p, f.error found p = g.error found p
  /-- A document may end at both or at neither. -/
  ends : ∀ ds, State.document? ⟨ds, f⟩ = State.document? ⟨ds, g⟩

/-- Where a name leads from a place that only a name can follow. -/
def Focus.afterName? : Focus → Option (String → Focus)
  | .variableSign op => some (.variableName op)
  | .fragmentType name => some fun type => .site (.fragment ⟨name, type, [], []⟩)
  | .directiveSign s => some (.directiveName s)
  | .variableUse slot => some fun name => slot.fill (.var name)
  | .aliasColon b aliasName => some fun name => .fieldName b ⟨some aliasName, name, [], []⟩
  | .inlineType b => some fun type => .site (.inline b ⟨some type, []⟩)
  | _ => none

/-- Where a colon leads from a place that only a colon can follow. -/
def Focus.afterColon? : Focus → Option Focus
  | .variableName op name => some (.typeStart op name 0)
  | .argumentName holder name => some (.value (.argument holder name))
  | .memberName outer members name => some (.value (.member outer members name))
  | _ => none

/-- The selection set that opens after directives, where one must. -/
def Site.block? : Site → Option Block
  | .operation op => some (.operation op)
  | .fragment f => some (.fragment f)
  | .inline block head => some (.inline block head [])
  | _ => none

variable {found : Option Lexeme}

theorem next_of_afterName {f : Focus} {g : String → Focus} (h : f.afterName? = some g)
    (name : String) : f.next (.name name) = some (.to (g name)) := by
  cases f <;> simp only [Focus.afterName?, Option.some.injEq, reduceCtorEq] at h <;> subst h <;> rfl

theorem misses_of_afterName {f : Focus} {g : String → Focus} (h : f.afterName? = some g)
    (hname : ∀ name, found ≠ some (.name name)) : f.Misses .name found := by
  cases f <;> simp only [Focus.afterName?, reduceCtorEq] at h
  all_goals
    refine ⟨fun l hl => ?_, fun _ => rfl⟩
    cases l with
    | name name => exact absurd hl (hname name)
    | _ => rfl

theorem next_of_afterColon {f g : Focus} (h : f.afterColon? = some g) :
    f.next (.mark .colon) = some (.to g) := by
  cases f <;> simp only [Focus.afterColon?, Option.some.injEq, reduceCtorEq] at h <;> subst h <;>
    rfl

theorem misses_of_afterColon {f g : Focus} (h : f.afterColon? = some g)
    (hcolon : found ≠ some (.mark .colon)) : f.Misses (.mark .colon) found := by
  cases f <;> simp only [Focus.afterColon?, reduceCtorEq] at h
  all_goals
    refine ⟨fun l hl => ?_, fun _ => rfl⟩
    cases l with
    | mark m => cases m <;> first | rfl | exact absurd hl hcolon
    | _ => rfl

theorem next_of_block {s : Site} {b : Block} (h : s.block? = some b) :
    (Focus.site s).next (.mark .openBrace) = some (.to (.block b)) := by
  cases s <;> simp only [Site.block?, Option.some.injEq, reduceCtorEq] at h <;> subst h <;> rfl

theorem misses_of_block {s : Site} {b : Block} (h : s.block? = some b)
    (hat : found ≠ some (.mark .atSign)) (hbrace : found ≠ some (.mark .openBrace)) :
    (Focus.site s).Misses (.mark .openBrace) found := by
  cases s <;> simp only [Site.block?, reduceCtorEq] at h
  all_goals
    refine ⟨fun l hl => ?_, fun _ => rfl⟩
    cases l with
    | mark m => cases m <;> first | rfl | exact absurd hl hat | exact absurd hl hbrace
    | _ => rfl

theorem misses_typeStart (op : Operation) (name : String) (depth : Nat)
    (hname : ∀ name, found ≠ some (.name name)) (hbracket : found ≠ some (.mark .openBracket)) :
    (Focus.typeStart op name depth).Misses .name found := by
  refine ⟨fun l hl => ?_, fun _ => rfl⟩
  cases l with
  | mark m => cases m <;> first | rfl | exact absurd hl hbracket
  | name name => exact absurd hl (hname name)
  | _ => rfl

theorem misses_typeEnd (op : Operation) (name : String) (depth : Nat) (t : TypeRef) {marked : Bool}
    (hbang : marked = false → found ≠ some (.mark .bang))
    (hbracket : found ≠ some (.mark .closeBracket)) :
    (Focus.typeEnd op name (depth + 1) t marked).Misses (.mark .closeBracket) found := by
  refine ⟨fun l hl => ?_, fun _ => rfl⟩
  cases marked <;> cases l with
  | mark m => cases m <;> first | rfl | exact absurd hl hbracket | exact absurd hl (hbang rfl)
  | _ => rfl

theorem misses_dollar (op : Operation) (hdollar : found ≠ some (.mark .dollar))
    (hparen : found = some (.mark .closeParen) → op.variableDefinitions = []) :
    (Focus.variableDefinitions op).Misses (.mark .dollar) found := by
  refine ⟨fun l hl => ?_, fun _ => rfl⟩
  cases l with
  | mark m =>
    cases m <;> first | rfl | exact absurd hl hdollar | simp [Focus.next, nextVariable, hparen hl]
  | _ => rfl

theorem misses_argument (holder : Holder) (hname : ∀ name, found ≠ some (.name name))
    (hparen : found = some (.mark .closeParen) → holder.arguments = []) :
    (Focus.arguments holder).Misses .name found := by
  refine ⟨fun l hl => ?_, fun _ => rfl⟩
  cases l with
  | mark m => cases m <;> first | rfl | simp [Focus.next, hparen hl]
  | name name => exact absurd hl (hname name)
  | _ => rfl

theorem misses_member (outer : Slot) (members : List (String × Value))
    (hname : ∀ name, found ≠ some (.name name)) (hbrace : found ≠ some (.mark .closeBrace)) :
    (Focus.object outer members).Misses .name found := by
  refine ⟨fun l hl => ?_, fun _ => rfl⟩
  cases l with
  | mark m => cases m <;> first | rfl | exact absurd hl hbrace
  | name name => exact absurd hl (hname name)
  | _ => rfl

theorem misses_field (b : Block) (hname : ∀ name, found ≠ some (.name name))
    (hdots : found ≠ some (.mark .dots))
    (hbrace : found = some (.mark .closeBrace) → b.selections = []) :
    (Focus.block b).Misses .name found := by
  refine ⟨fun l hl => ?_, fun _ => rfl⟩
  cases l with
  | mark m =>
    cases m <;> first | rfl | exact absurd hl hdots | simp [Focus.next, Block.next, hbrace hl]
  | name name => exact absurd hl (hname name)
  | _ => rfl

theorem misses_fragmentKeyword (hname : ∀ name, found ≠ some (.name name)) :
    Focus.fragmentKeyword.Misses .name found := by
  constructor
  · intro l hl
    cases l with
    | name name => exact absurd hl (hname name)
    | _ => rfl
  · intro p
    rcases found with _ | l
    · rfl
    · cases l with
      | name name => exact absurd rfl (hname name)
      | _ => rfl

theorem misses_fragmentName (name : String) (hon : found ≠ some (.name "on")) :
    (Focus.fragmentName name).Misses (.keyword "on") found := by
  refine ⟨fun l hl => ?_, fun _ => rfl⟩
  cases l with
  | name word =>
    have hword : word ≠ "on" := fun h => hon (h ▸ hl)
    exact if_neg hword
  | _ => rfl

/-- Without a name, an operation goes on as behind one. -/
theorem alike_operationKeyword (op : Operation) (hname : ∀ name, found ≠ some (.name name)) :
    (Focus.operationKeyword op).Alike (.operationName op) found := by
  refine ⟨fun l hl => ?_, fun _ => rfl, fun _ => rfl⟩
  cases l with
  | name name => exact absurd hl (hname name)
  | _ => rfl

/-- Without variables, an operation goes on as behind them. -/
theorem alike_operationName (op : Operation) (hparen : found ≠ some (.mark .openParen)) :
    (Focus.operationName op).Alike (.site (.operation op)) found := by
  refine ⟨fun l hl => ?_, fun _ => rfl, fun _ => rfl⟩
  have hl' : l ≠ .mark .openParen := fun h => hparen (h ▸ hl)
  exact if_neg hl'

/-- Without a default, the declaration of a variable goes on as behind it. -/
theorem alike_typeEnd (op : Operation) (name : String) (t : TypeRef) {marked : Bool}
    (hbang : marked = false → found ≠ some (.mark .bang))
    (hequals : found ≠ some (.mark .equals)) :
    (Focus.typeEnd op name 0 t marked).Alike (.site (.variableOf op ⟨name, t, none, []⟩))
      found := by
  refine ⟨fun l hl => ?_, fun _ => rfl, fun _ => rfl⟩
  cases marked <;> cases l with
  | mark m => cases m <;> first | rfl | exact absurd hl hequals | exact absurd hl (hbang rfl)
  | _ => rfl

/-- Behind its directives, a variable is declared. -/
theorem alike_variableOf (op : Operation) (v : VariableDefinition)
    (hat : found ≠ some (.mark .atSign)) :
    (Focus.site (.variableOf op v)).Alike (.variableDefinitions (op.declare v)) found := by
  refine ⟨fun l hl => ?_, fun _ => rfl, fun _ => rfl⟩
  have hl' : l ≠ .mark .atSign := fun h => hat (h ▸ hl)
  exact if_neg hl'

/-- Without arguments, a directive is complete. -/
theorem alike_directiveName (s : Site) (name : String) (hparen : found ≠ some (.mark .openParen)) :
    (Focus.directiveName s name).Alike (.site (s.attach ⟨name, []⟩)) found := by
  refine ⟨fun l hl => next_directiveName fun h => hparen (h ▸ hl), fun _ => ?_, fun _ => rfl⟩
  cases s <;> rfl

/-- Without an alias, the first name is the field's own. -/
theorem alike_fieldStart (b : Block) (name : String) (hcolon : found ≠ some (.mark .colon)) :
    (Focus.fieldStart b name).Alike (.fieldName b (.plain name)) found :=
  ⟨fun _ hl => next_fieldStart fun h => hcolon (h ▸ hl), fun _ => rfl, fun _ => rfl⟩

/-- Without arguments, a field goes on as behind them. -/
theorem alike_fieldName (b : Block) (f : Field) (hparen : found ≠ some (.mark .openParen)) :
    (Focus.fieldName b f).Alike (.site (.field b f)) found := by
  refine ⟨fun l hl => ?_, fun _ => rfl, fun _ => rfl⟩
  have hl' : l ≠ .mark .openParen := fun h => hparen (h ▸ hl)
  exact if_neg hl'

/-- Without a selection set of its own, a field is complete. -/
theorem alike_field (b : Block) (f : Field) (hat : found ≠ some (.mark .atSign))
    (hbrace : found ≠ some (.mark .openBrace)) :
    (Focus.site (.field b f)).Alike (.block (b.add (.leaf f))) found := by
  refine ⟨fun l hl => ?_, fun _ => rfl, fun _ => rfl⟩
  have hat' : l ≠ .mark .atSign := fun h => hat (h ▸ hl)
  have hbrace' : l ≠ .mark .openBrace := fun h => hbrace (h ▸ hl)
  exact (if_neg hat').trans (if_neg hbrace')

/-- Behind its directives, the use of a fragment is complete. -/
theorem alike_spread (b : Block) (s : Spread) (hat : found ≠ some (.mark .atSign)) :
    (Focus.site (.spread b s)).Alike (.block (b.add (.spread s))) found := by
  refine ⟨fun l hl => ?_, fun _ => rfl, fun _ => rfl⟩
  have hl' : l ≠ .mark .atSign := fun h => hat (h ▸ hl)
  exact if_neg hl'

/-- Without a name or a type, the dots begin an inline fragment for any type. -/
theorem alike_dots (b : Block) (hname : ∀ name, found ≠ some (.name name)) :
    (Focus.dots b).Alike (.site (.inline b ⟨none, []⟩)) found := by
  refine ⟨fun l hl => ?_, fun _ => rfl, fun _ => rfl⟩
  cases l with
  | name name => exact absurd hl (hname name)
  | _ => rfl

/-- A list that is not closed goes on with an item. -/
theorem alike_list (outer : Slot) (items : List Value)
    (hbracket : found ≠ some (.mark .closeBracket)) :
    (Focus.list outer items).Alike (.value (.item outer items)) found :=
  ⟨fun _ hl => next_list outer items fun h => hbracket (h ▸ hl), fun _ => rfl, fun _ => rfl⟩

end Grammar

end Safelist
