import Mathlib.Data.List.Forall2
import Safelist.Proofs.Document.Moves

/-!
# What a place of the grammar holds

The definition that is open at a place of the grammar, written out as far as it
goes, gives back the lexemes that have been read of it. A lexeme that leads from
one place to the next stands at the end of what the next place holds, and the
closing brace of a definition completes the lexemes of that definition. Only the
keyword in front of a bare selection set can be told from its absence nowhere.
-/

namespace Safelist

open Lexical

/-- The lexemes of an operation before its variables. -/
def Operation.title (op : Operation) : List Lexeme :=
  .name op.kind.keyword :: op.name.toList.map Lexeme.name

/-- There is nothing to an operation but its title. -/
def Operation.IsTitle (op : Operation) : Prop :=
  op.variableDefinitions = [] ∧ op.directives = [] ∧ op.selections = []

/-- The lexemes of a field before its arguments. -/
def Field.title (f : Field) : List Lexeme :=
  match f.aliasName with
  | some aliasName => [.name aliasName, .mark .colon, .name f.name]
  | none => [.name f.name]

/-- The lexemes of a fragment before its directives. -/
def Fragment.title (f : Fragment) : List Lexeme :=
  [.name "fragment", .name f.name, .name "on", .name f.typeCondition]

theorem Operation.lexemes_headPieces (op : Operation) :
    Piece.lexemes op.headPieces = op.title ++
      (Piece.lexemes (Piece.parenthesized (op.variableDefinitions.map VariableDefinition.pieces)) ++
        Piece.lexemes (Directive.listPieces op.directives)) := by
  obtain ⟨kind, name, vs, ds, set⟩ := op
  cases name <;> simp [headPieces, title]

theorem Field.lexemes_pieces (f : Field) :
    Piece.lexemes f.pieces = f.title ++
      (Piece.lexemes (Piece.parenthesized (f.arguments.map Argument.pieces)) ++
        Piece.lexemes (Directive.listPieces f.directives)) := by
  obtain ⟨aliasName, name, as, ds⟩ := f
  cases aliasName <;> simp [pieces, title]

/-- The lexemes of an operation before its selection set. There are none when the set is all
there is and the keyword was left out. -/
def Operation.HeadedBy (op : Operation) (head : List Lexeme) : Prop :=
  head = Piece.lexemes op.headPieces ∨ op.isShorthand = true ∧ head = []

/-- The lexemes of a definition, with or without the keyword in front of a bare selection
set. -/
def Definition.ReadFrom : Definition → List Lexeme → Prop
  | .operation op, ls =>
    ∃ head, op.HeadedBy head ∧ ls = head ++ Piece.lexemes (Selection.setPieces op.selections)
  | .fragment f, ls => ls = Piece.lexemes f.pieces

namespace Grammar

/-- Some lexemes stand behind lexemes of which something is known. -/
def Behind (p : List Lexeme → Prop) (tail ls : List Lexeme) : Prop :=
  ∃ before, p before ∧ ls = before ++ tail

theorem Behind.intro {p : List Lexeme → Prop} {ls : List Lexeme} (h : p ls) (tail : List Lexeme) :
    Behind p tail (ls ++ tail) :=
  ⟨ls, h, rfl⟩

/-- One more lexeme stands behind all others. -/
theorem Behind.concat {p : List Lexeme → Prop} {tail ls : List Lexeme} (h : Behind p tail ls)
    (l : Lexeme) : Behind p (tail ++ [l]) (ls ++ [l]) := by
  obtain ⟨before, hp, rfl⟩ := h
  exact ⟨before, hp, List.append_assoc ..⟩

/-- The lexemes of a selection set that is open, with everything before it. -/
def Block.Holds : Block → List Lexeme → Prop
  | .operation op, ls =>
    Behind op.HeadedBy
      (.mark .openBrace :: Piece.lexemes (Selection.listPieces op.selections)) ls
  | .fragment f, ls =>
    ls = f.title ++ (Piece.lexemes (Directive.listPieces f.directives) ++
      .mark .openBrace :: Piece.lexemes (Selection.listPieces f.selections))
  | .nested outer f set, ls =>
    Behind outer.Holds
      (Piece.lexemes f.pieces ++ .mark .openBrace :: Piece.lexemes (Selection.listPieces set)) ls
  | .inline outer head set, ls =>
    Behind outer.Holds
      (Piece.lexemes head.pieces ++ .mark .openBrace :: Piece.lexemes (Selection.listPieces set))
      ls

/-- The lexemes of an operation up to a variable, after the opening parenthesis. -/
def HoldsVariables (op : Operation) (ls : List Lexeme) : Prop :=
  op.directives = [] ∧ op.selections = [] ∧
    ls = op.title ++ .mark .openParen ::
      op.variableDefinitions.flatMap fun v => Piece.lexemes v.pieces

/-- The lexemes of what bears directives, up to the last directive. -/
def Site.Holds : Site → List Lexeme → Prop
  | .operation op, ls => op.selections = [] ∧ ls = Piece.lexemes op.headPieces
  | .variableOf op v, ls => Behind (HoldsVariables op) (Piece.lexemes v.pieces) ls
  | .fragment f, ls =>
    f.selections = [] ∧ ls = f.title ++ Piece.lexemes (Directive.listPieces f.directives)
  | .field block f, ls => Behind block.Holds (Piece.lexemes f.pieces) ls
  | .spread block s, ls => Behind block.Holds (Piece.lexemes s.pieces) ls
  | .inline block head, ls => Behind block.Holds (Piece.lexemes head.pieces) ls

/-- The lexemes of what is given arguments, up to the last argument. -/
def Holder.Holds : Holder → List Lexeme → Prop
  | .field block f, ls =>
    f.directives = [] ∧ Behind block.Holds
      (f.title ++ .mark .openParen :: f.arguments.flatMap fun a => Piece.lexemes a.pieces) ls
  | .directive site d, ls =>
    Behind site.Holds (.mark .atSign :: .name d.name :: .mark .openParen ::
      d.arguments.flatMap fun a => Piece.lexemes a.pieces) ls

/-- The lexemes of the members of an input object. -/
def memberLexemes (members : List (String × Value)) : List Lexeme :=
  members.flatMap fun m => .name m.1 :: .mark .colon :: Piece.lexemes m.2.pieces

/-- The lexemes before a value. -/
def Slot.Holds : Slot → List Lexeme → Prop
  | .argument holder name, ls => Behind holder.Holds [.name name, .mark .colon] ls
  | .defaultOf op name type, ls =>
    Behind (HoldsVariables op)
      (.mark .dollar :: .name name :: .mark .colon ::
        (Piece.lexemes type.pieces ++ [.mark .equals])) ls
  | .item outer items, ls =>
    Behind outer.Holds
      (.mark .openBracket :: items.flatMap fun v => Piece.lexemes v.pieces) ls
  | .member outer members name, ls =>
    Behind outer.Holds
      (.mark .openBrace :: (memberLexemes members ++ [.name name, .mark .colon])) ls

/-- The lexemes that have been read of the definition that is open. -/
def Focus.Holds : Focus → List Lexeme → Prop
  | .between, ls => ls = []
  | .operationKeyword op, ls => op.name = none ∧ op.IsTitle ∧ ls = op.title
  | .operationName op, ls => op.IsTitle ∧ ls = op.title
  | .variableDefinitions op, ls => HoldsVariables op ls
  | .variableSign op, ls => Behind (HoldsVariables op) [.mark .dollar] ls
  | .variableName op name, ls => Behind (HoldsVariables op) [.mark .dollar, .name name] ls
  | .typeStart op name depth, ls =>
    Behind (HoldsVariables op) (.mark .dollar :: .name name :: .mark .colon ::
      List.replicate depth (.mark .openBracket)) ls
  | .typeEnd op name depth type _, ls =>
    Behind (HoldsVariables op) (.mark .dollar :: .name name :: .mark .colon ::
      (List.replicate depth (.mark .openBracket) ++ Piece.lexemes type.pieces)) ls
  | .fragmentKeyword, ls => ls = [.name "fragment"]
  | .fragmentName name, ls => ls = [.name "fragment", .name name]
  | .fragmentType name, ls => ls = [.name "fragment", .name name, .name "on"]
  | .site s, ls => s.Holds ls
  | .directiveSign s, ls => Behind s.Holds [.mark .atSign] ls
  | .directiveName s name, ls => Behind s.Holds [.mark .atSign, .name name] ls
  | .arguments holder, ls => holder.Holds ls
  | .argumentName holder name, ls => Behind holder.Holds [.name name] ls
  | .value slot, ls => slot.Holds ls
  | .variableUse slot, ls => Behind slot.Holds [.mark .dollar] ls
  | .list outer items, ls =>
    Behind outer.Holds
      (.mark .openBracket :: items.flatMap fun v => Piece.lexemes v.pieces) ls
  | .object outer members, ls =>
    Behind outer.Holds (.mark .openBrace :: memberLexemes members) ls
  | .memberName outer members name, ls =>
    Behind outer.Holds (.mark .openBrace :: (memberLexemes members ++ [.name name])) ls
  | .block b, ls => b.Holds ls
  | .fieldStart b name, ls => Behind b.Holds [.name name] ls
  | .aliasColon b aliasName, ls => Behind b.Holds [.name aliasName, .mark .colon] ls
  | .fieldName b f, ls =>
    (f.arguments = [] ∧ f.directives = []) ∧ Behind b.Holds f.title ls
  | .dots b, ls => Behind b.Holds [.mark .dots] ls
  | .inlineType b, ls => Behind b.Holds [.mark .dots, .name "on"] ls

/-- The lexemes of the definition that is open, or of the one that is completed. -/
def Move.Holds : Move → List Lexeme → Prop
  | .to f, ls => f.Holds ls
  | .complete x, ls => x.ReadFrom ls

variable {ls : List Lexeme} {l : Lexeme} {m : Move}

theorem Block.Holds.add {block : Block} (h : block.Holds ls) (s : Selection) :
    (block.add s).Holds (ls ++ Piece.lexemes s.pieces) := by
  cases block with
  | operation op =>
    obtain ⟨head, hh, rfl⟩ := h
    exact ⟨head, hh, by simp⟩
  | fragment f =>
    subst h
    simp [Block.add, Holds, Fragment.title]
  | nested outer f set =>
    obtain ⟨before, ho, rfl⟩ := h
    exact ⟨before, ho, by simp⟩
  | inline outer head set =>
    obtain ⟨before, ho, rfl⟩ := h
    exact ⟨before, ho, by simp⟩

theorem Block.Holds.close {block : Block} (h : block.Holds ls) :
    block.close.Holds (ls ++ [.mark .closeBrace]) := by
  cases block with
  | operation op =>
    obtain ⟨head, hh, rfl⟩ := h
    exact ⟨head, hh, by simp [Selection.setPieces]⟩
  | fragment f =>
    subst h
    simp [Block.close, Move.Holds, Definition.ReadFrom, Fragment.pieces, Fragment.title,
      Selection.setPieces]
  | nested outer f set =>
    obtain ⟨before, ho, rfl⟩ := h
    show (outer.add (.nested f set)).Holds _
    simpa [Selection.pieces] using ho.add (.nested f set)
  | inline outer head set =>
    obtain ⟨before, ho, rfl⟩ := h
    show (outer.add (.inline head set)).Holds _
    simpa [Selection.pieces] using ho.add (.inline head set)

theorem Block.Holds.next {block : Block} (h : block.Holds ls) (hm : block.next l = some m) :
    m.Holds (ls ++ [l.plain]) := by
  unfold Block.next at hm
  split at hm
  · cases hm
    exact .intro h _
  · cases hm
    exact .intro h _
  · split at hm <;> cases hm
    exact h.close
  · cases hm

theorem nextVariable_holds {op : Operation} (h : HoldsVariables op ls)
    (hm : nextVariable op l = some m) : m.Holds (ls ++ [l.plain]) := by
  unfold nextVariable at hm
  split at hm
  · cases hm
    exact .intro h _
  · split at hm
    · cases hm
    · rename_i hne
      cases hm
      obtain ⟨hd, hs, rfl⟩ := h
      refine ⟨hs, ?_⟩
      rw [Operation.lexemes_headPieces, hd, Piece.lexemes_parenthesized _ (by simpa using hne)]
      simp [List.flatMap_map, Directive.listPieces, Lexeme.plain]
  · cases hm

/-- One more variable is declared. -/
theorem HoldsVariables.declare {op : Operation} (h : HoldsVariables op ls)
    (v : VariableDefinition) : HoldsVariables (op.declare v) (ls ++ Piece.lexemes v.pieces) := by
  obtain ⟨hd, hs, rfl⟩ := h
  exact ⟨hd, hs, by simp [Operation.declare, Operation.title]⟩

theorem Site.Holds.attach {site : Site} (h : site.Holds ls) (d : Directive) :
    (site.attach d).Holds (ls ++ Piece.lexemes d.pieces) := by
  cases site with
  | operation op =>
    obtain ⟨hs, rfl⟩ := h
    exact ⟨hs, by simp [Operation.lexemes_headPieces, Operation.title, Directive.listPieces]⟩
  | variableOf op v =>
    obtain ⟨before, hv, rfl⟩ := h
    exact ⟨before, hv, by simp [VariableDefinition.pieces, Directive.listPieces]⟩
  | fragment f =>
    obtain ⟨hs, rfl⟩ := h
    exact ⟨hs, by simp [Fragment.title, Directive.listPieces]⟩
  | field block f =>
    obtain ⟨before, hb, rfl⟩ := h
    exact ⟨before, hb, by simp [Field.lexemes_pieces, Field.title, Directive.listPieces]⟩
  | spread block s =>
    obtain ⟨before, hb, rfl⟩ := h
    exact ⟨before, hb, by simp [Spread.pieces, Directive.listPieces]⟩
  | inline block head =>
    obtain ⟨before, hb, rfl⟩ := h
    exact ⟨before, hb, by simp [InlineHead.pieces, Directive.listPieces]⟩

theorem Holder.Holds.attach {holder : Holder} (h : holder.Holds ls) (a : Argument) :
    (holder.attach a).Holds (ls ++ Piece.lexemes a.pieces) := by
  cases holder with
  | field block f =>
    obtain ⟨hd, before, hb, rfl⟩ := h
    exact ⟨hd, before, hb, by simp [Field.title]⟩
  | directive site d =>
    obtain ⟨before, hs, rfl⟩ := h
    exact ⟨before, hs, by simp⟩

/-- A parenthesis closes arguments, of which there must be some. -/
theorem Holder.Holds.close {holder : Holder} (h : holder.Holds ls) (hne : holder.arguments ≠ []) :
    holder.close.Holds (ls ++ [.mark .closeParen]) := by
  cases holder with
  | field block f =>
    obtain ⟨hd, before, hb, rfl⟩ := h
    replace hne : f.arguments ≠ [] := hne
    refine ⟨before, hb, ?_⟩
    rw [Field.lexemes_pieces, hd, Piece.lexemes_parenthesized _ (by simpa using hne)]
    simp [List.flatMap_map, Directive.listPieces]
  | directive site d =>
    obtain ⟨before, hs, rfl⟩ := h
    replace hne : d.arguments ≠ [] := hne
    have ha := hs.attach d
    rw [Directive.pieces, Piece.lexemes_cons_ofMark, Piece.lexemes_cons_ofName,
      Piece.lexemes_parenthesized _ (by simpa using hne)] at ha
    show (site.attach d).Holds _
    simpa [List.flatMap_map] using ha

theorem Site.Holds.next {site : Site} (h : site.Holds ls) (hm : site.next l = some m) :
    m.Holds (ls ++ [l.plain]) := by
  unfold Site.next at hm
  split at hm
  · rename_i hl
    subst hl
    cases hm
    exact .intro h _
  · cases site with
    | operation op =>
      simp only at hm
      split at hm <;> cases hm
      rename_i hl
      obtain ⟨hs, rfl⟩ := h
      exact ⟨_, .inl rfl, by simp [hl, hs, Lexeme.plain]⟩
    | variableOf op v =>
      obtain ⟨before, hv, rfl⟩ := h
      exact nextVariable_holds (hv.declare v) hm
    | fragment f =>
      simp only at hm
      split at hm <;> cases hm
      rename_i hl
      obtain ⟨hs, rfl⟩ := h
      simp [Move.Holds, Focus.Holds, Block.Holds, hl, hs, Lexeme.plain]
    | field block f =>
      obtain ⟨before, hb, rfl⟩ := h
      simp only at hm
      split at hm
      · rename_i hl
        cases hm
        exact ⟨before, hb, by simp [hl, Lexeme.plain]⟩
      · exact (hb.add (.leaf f)).next hm
    | spread block s =>
      obtain ⟨before, hb, rfl⟩ := h
      exact (hb.add (.spread s)).next hm
    | inline block head =>
      obtain ⟨before, hb, rfl⟩ := h
      simp only at hm
      split at hm <;> cases hm
      rename_i hl
      exact ⟨before, hb, by simp [hl, Lexeme.plain]⟩

/-- A value stands behind what was read before it. -/
theorem Slot.Holds.fill {slot : Slot} (h : slot.Holds ls) (v : Value) :
    (slot.fill v).Holds (ls ++ Piece.lexemes v.pieces) := by
  cases slot with
  | argument holder name =>
    obtain ⟨before, hh, rfl⟩ := h
    show (holder.attach ⟨name, v⟩).Holds _
    simpa [Argument.pieces] using hh.attach ⟨name, v⟩
  | defaultOf op name type =>
    obtain ⟨before, hv, rfl⟩ := h
    exact ⟨before, hv, by simp [VariableDefinition.pieces, Directive.listPieces]⟩
  | item outer items =>
    obtain ⟨before, ho, rfl⟩ := h
    exact ⟨before, ho, by simp⟩
  | member outer members name =>
    obtain ⟨before, ho, rfl⟩ := h
    exact ⟨before, ho, by simp [memberLexemes]⟩

/-- A name stands for a value that is written as the name. -/
theorem lexemes_valueOfName (name : String) :
    Piece.lexemes (valueOfName name).pieces = [.name name] := by
  unfold valueOfName
  split
  · simp_all [Value.pieces]
  · split
    · simp_all [Value.pieces]
    · split <;> simp_all [Value.pieces]

theorem Slot.Holds.next {slot : Slot} (h : slot.Holds ls) (hm : slot.next l = some m) :
    m.Holds (ls ++ [l.plain]) := by
  unfold Slot.next at hm
  split at hm
  · cases hm
    exact .intro h _
  · cases hm
    exact .intro h _
  · split at hm <;> cases hm
    exact .intro h _
  · cases hm
    exact h.fill (.int _)
  · cases hm
    exact h.fill (.float _)
  · cases hm
    exact h.fill (.string _ false)
  · cases hm
    exact h.fill (.string _ true)
  · rename_i name
    cases hm
    have hv := h.fill (valueOfName name)
    rwa [lexemes_valueOfName] at hv
  · cases hm

/-- A keyword is all of an operation of which only the kind is known. -/
theorem title_bareOperation {word : String} {kind : OperationKind}
    (h : OperationKind.ofKeyword? word = some kind) :
    (bareOperation kind).title = [.name word] := by
  unfold OperationKind.ofKeyword? at h
  split at h
  · cases h
    simp_all [bareOperation, Operation.title, OperationKind.keyword]
  · split at h
    · cases h
      simp_all [bareOperation, Operation.title, OperationKind.keyword]
    · split at h <;> cases h
      simp_all [bareOperation, Operation.title, OperationKind.keyword]

theorem afterOperationName_holds {op : Operation} (h : op.IsTitle)
    (hm : afterOperationName op l = some m) : m.Holds (op.title ++ [l.plain]) := by
  obtain ⟨hv, hd, hs⟩ := h
  unfold afterOperationName at hm
  split at hm
  · rename_i hl
    cases hm
    exact ⟨hd, hs, by simp [hl, hv, Lexeme.plain]⟩
  · have hsite : (Site.operation op).Holds op.title :=
      ⟨hs, by simp [Operation.lexemes_headPieces, hv, hd, Directive.listPieces]⟩
    exact hsite.next hm

theorem afterFieldName_holds {block : Block} {f : Field}
    (hf : f.arguments = [] ∧ f.directives = []) (h : Behind block.Holds f.title ls)
    (hm : afterFieldName block f l = some m) : m.Holds (ls ++ [l.plain]) := by
  obtain ⟨ha, hd⟩ := hf
  obtain ⟨before, hb, rfl⟩ := h
  unfold afterFieldName at hm
  split at hm
  · rename_i hl
    cases hm
    exact ⟨hd, before, hb, by simp [hl, ha, Lexeme.plain]⟩
  · have hsite : (Site.field block f).Holds (before ++ f.title) :=
      ⟨before, hb, by simp [Field.lexemes_pieces, ha, hd, Directive.listPieces]⟩
    exact hsite.next hm

section Phrases

variable {f : Focus}

theorem Focus.Holds.next_definitions (h : f.Holds ls) (hf : f.phrase = .definitions)
    (hm : f.next l = some m) : m.Holds (ls ++ [l.plain]) := by
  cases f <;> cases hf
  case between =>
    subst h
    obtain ⟨rfl, rfl⟩ | ⟨word, kind, rfl, hk, rfl⟩ | ⟨rfl, rfl⟩ := next_between_cases hm
    · exact ⟨[], .inr ⟨rfl, rfl⟩, rfl⟩
    · exact ⟨rfl, ⟨rfl, rfl, rfl⟩, by simp [title_bareOperation hk, Lexeme.plain]⟩
    · rfl

theorem Focus.Holds.next_operation (h : f.Holds ls) (hf : f.phrase = .operation)
    (hm : f.next l = some m) : m.Holds (ls ++ [l.plain]) := by
  cases f <;> cases hf
  case operationKeyword op =>
    obtain ⟨hn, ht, rfl⟩ := h
    obtain ⟨name, rfl, rfl⟩ | hm := next_operationKeyword_cases hm
    · exact ⟨ht, by simp [Operation.title, hn, Lexeme.plain]⟩
    · exact afterOperationName_holds ht hm
  case operationName op =>
    obtain ⟨ht, rfl⟩ := h
    exact afterOperationName_holds ht hm

theorem Focus.Holds.next_declarations (h : f.Holds ls) (hf : f.phrase = .declarations)
    (hm : f.next l = some m) : m.Holds (ls ++ [l.plain]) := by
  cases f <;> cases hf
  case variableDefinitions op => exact nextVariable_holds h hm
  case variableSign op =>
    cases l <;> cases hm
    exact h.concat _
  case variableName op name =>
    obtain ⟨rfl, rfl⟩ := next_variableName_cases hm
    exact h.concat _
  case typeStart op name depth =>
    obtain ⟨before, hv, rfl⟩ := h
    obtain ⟨rfl, rfl⟩ | ⟨type, rfl, rfl⟩ := next_typeStart_cases hm
    · exact ⟨before, hv, by simp [List.replicate_succ', Lexeme.plain]⟩
    · exact ⟨before, hv, by simp [TypeRef.pieces, Lexeme.plain]⟩
  case typeEnd op name depth type marked =>
    obtain ⟨before, hv, rfl⟩ := h
    obtain ⟨rfl, rfl, rfl⟩ | ⟨d, rfl, rfl, rfl⟩ | ⟨rfl, rfl, rfl⟩ | ⟨rfl, hsite⟩ :=
      next_typeEnd_cases hm
    · exact ⟨before, hv, by simp [TypeRef.pieces, Lexeme.plain]⟩
    · exact ⟨before, hv, by simp [TypeRef.pieces, List.replicate_succ', Lexeme.plain]⟩
    · exact ⟨before, hv, by simp [Lexeme.plain]⟩
    · have hs : (Site.variableOf op ⟨name, type, none, []⟩).Holds (before ++ _) :=
        ⟨before, hv, by simp [VariableDefinition.pieces, Directive.listPieces]; rfl⟩
      exact hs.next hsite

theorem Focus.Holds.next_fragment (h : f.Holds ls) (hf : f.phrase = .fragment)
    (hm : f.next l = some m) : m.Holds (ls ++ [l.plain]) := by
  cases f <;> cases hf
  case fragmentKeyword =>
    subst h
    obtain ⟨name, -, rfl, rfl⟩ := next_fragmentKeyword_cases hm
    rfl
  case fragmentName name =>
    subst h
    obtain ⟨rfl, rfl⟩ := next_fragmentName_cases hm
    rfl
  case fragmentType name =>
    subst h
    cases l <;> cases hm
    exact ⟨rfl, rfl⟩

theorem Focus.Holds.next_directives (h : f.Holds ls) (hf : f.phrase = .directives)
    (hm : f.next l = some m) : m.Holds (ls ++ [l.plain]) := by
  cases f <;> cases hf
  case site s => exact Site.Holds.next h hm
  case directiveSign s =>
    cases l <;> cases hm
    exact h.concat _
  case directiveName s name =>
    obtain ⟨rfl, rfl⟩ | hm := next_directiveName_cases hm
    · exact h.concat _
    · obtain ⟨before, hs, rfl⟩ := h
      exact (hs.attach ⟨name, []⟩).next hm

theorem Focus.Holds.next_arguments (h : f.Holds ls) (hf : f.phrase = .arguments)
    (hm : f.next l = some m) : m.Holds (ls ++ [l.plain]) := by
  cases f <;> cases hf
  case arguments holder =>
    obtain ⟨name, rfl, rfl⟩ | ⟨hne, rfl, rfl⟩ := next_arguments_cases hm
    · exact .intro h _
    · exact Holder.Holds.close h hne
  case argumentName holder name =>
    obtain ⟨rfl, rfl⟩ := next_argumentName_cases hm
    exact h.concat _

theorem Focus.Holds.next_values (h : f.Holds ls) (hf : f.phrase = .values)
    (hm : f.next l = some m) : m.Holds (ls ++ [l.plain]) := by
  cases f <;> cases hf
  case value slot => exact Slot.Holds.next h hm
  case variableUse slot =>
    obtain ⟨before, hs, rfl⟩ := h
    cases l <;> cases hm
    simpa [Move.Holds, Lexeme.plain, Value.pieces] using hs.fill (.var _)
  case list outer items =>
    obtain ⟨rfl, rfl⟩ | hm := next_list_cases hm
    · obtain ⟨before, hs, rfl⟩ := h
      simpa [Move.Holds, Lexeme.plain, Value.pieces, List.flatMap_map] using hs.fill (.list items)
    · have hs : (Slot.item outer items).Holds ls := h
      exact hs.next hm
  case object outer members =>
    obtain ⟨before, hs, rfl⟩ := h
    obtain ⟨rfl, rfl⟩ | ⟨name, rfl, rfl⟩ := next_object_cases hm
    · simpa [Move.Holds, Lexeme.plain, Value.pieces, memberLexemes, List.flatMap_map]
        using hs.fill (.object members)
    · exact ⟨before, hs, by simp [Lexeme.plain]⟩
  case memberName outer members name =>
    obtain ⟨before, hs, rfl⟩ := h
    obtain ⟨rfl, rfl⟩ := next_memberName_cases hm
    exact ⟨before, hs, by simp [Lexeme.plain]⟩

theorem Focus.Holds.next_selections (h : f.Holds ls) (hf : f.phrase = .selections)
    (hm : f.next l = some m) : m.Holds (ls ++ [l.plain]) := by
  cases f <;> cases hf
  case block b => exact Block.Holds.next h hm
  case fieldStart b name =>
    obtain ⟨rfl, rfl⟩ | hm := next_fieldStart_cases hm
    · exact h.concat _
    · have hb : Behind b.Holds (Field.plain name).title ls := h
      exact afterFieldName_holds ⟨rfl, rfl⟩ hb hm
  case aliasColon b aliasName =>
    cases l <;> cases hm
    exact ⟨⟨rfl, rfl⟩, h.concat _⟩
  case fieldName b f => exact afterFieldName_holds h.1 h.2 hm
  case dots b =>
    obtain ⟨rfl, rfl⟩ | ⟨name, -, rfl, rfl⟩ | hm := next_dots_cases hm
    · exact h.concat _
    · exact h.concat _
    · have hs : (Site.inline b ⟨none, []⟩).Holds ls := h
      exact hs.next hm
  case inlineType b =>
    cases l <;> cases hm
    exact h.concat _

/-- A lexeme stands at the end of what the place holds to which it leads, and a definition that
it completes is made of all that was read of it. -/
theorem Focus.Holds.next (h : f.Holds ls) (hm : f.next l = some m) :
    m.Holds (ls ++ [l.plain]) := by
  cases hf : f.phrase with
  | definitions => exact h.next_definitions hf hm
  | operation => exact h.next_operation hf hm
  | declarations => exact h.next_declarations hf hm
  | fragment => exact h.next_fragment hf hm
  | directives => exact h.next_directives hf hm
  | arguments => exact h.next_arguments hf hm
  | values => exact h.next_values hf hm
  | selections => exact h.next_selections hf hm

end Phrases

/-- The lexemes of the complete definitions one after another, and behind them those of the
definition that is open. -/
def State.Holds (s : State) (ls : List Lexeme) : Prop :=
  ∃ runs tail, List.Forall₂ Definition.ReadFrom s.definitions runs ∧ s.focus.Holds tail ∧
    ls = runs.flatten ++ tail

theorem State.Holds.next {s t : State} (h : s.Holds ls) (ht : s.next l = some t) :
    t.Holds (ls ++ [l.plain]) := by
  obtain ⟨runs, tail, hr, hf, rfl⟩ := h
  unfold State.next at ht
  split at ht
  · cases ht
  · rename_i hm
    cases ht
    exact ⟨runs, tail ++ [l.plain], hr, hf.next hm, List.append_assoc ..⟩
  · rename_i hm
    cases ht
    exact ⟨runs ++ [tail ++ [l.plain]], [], List.rel_append hr (.cons (hf.next hm) .nil), rfl,
      by simp⟩

/-- Whatever has been read is held. -/
theorem State.Holds.read {more : List Lexeme} {s t : State} (h : s.Holds ls)
    (ht : s.read more = some t) : t.Holds (ls ++ more.map Lexeme.plain) := by
  induction more generalizing s ls with
  | nil =>
    cases ht
    simpa using h
  | cons l more ih =>
    obtain ⟨u, hu, hut⟩ := Option.bind_eq_some_iff.mp ht
    simpa using ih (h.next hu) hut

end Grammar

/-- The lexemes of a text that denotes a document are those of its definitions, apart from
keywords that may be left out. -/
theorem Document.exists_readFrom_of_ofTokens {stream : TokenStream} {d : Document}
    (hd : ofTokens stream = .ok d) :
    ∃ runs, List.Forall₂ Definition.ReadFrom d.definitions runs ∧
      (stream.tokens.map Token.lexeme).map Lexeme.plain = runs.flatten := by
  obtain ⟨t, ht, htd⟩ := Grammar.State.run_eq_ok_iff.mp hd
  have hs : Grammar.State.initial.Holds [] := ⟨[], [], .nil, rfl, rfl⟩
  obtain ⟨runs, tail, hr, hf, hls⟩ := hs.read ht
  unfold Grammar.State.document? at htd
  split at htd
  · rename_i hb
    split at htd <;> cases htd
    rw [hb] at hf
    subst hf
    exact ⟨runs, hr, by simpa using hls⟩
  · cases htd

end Safelist
