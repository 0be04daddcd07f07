import Mathlib.Data.List.Basic
import Safelist.Document.Printer
import Safelist.Proofs.Document.Map

/-!
# Text that does not tell numbers apart

Integers and other numbers are written in the same way, so a document is written
like the one in which every number is an integer. More generally, a document may
be changed value by value to values that are written like the old ones.
-/

namespace Safelist

namespace Piece

theorem spelling_separated (es : List (List Piece)) :
    (separated es).map spelling = List.intercalate [[',']] (es.map (List.map spelling)) := by
  induction es with
  | nil => rfl
  | cons e rest ih =>
    cases rest with
    | nil => simp [separated]
    | cons e' rest =>
      have hs : separated (e :: e' :: rest) = e ++ [.comma] ++ separated (e' :: rest) := by
        simp [separated]
      rw [hs, List.map_append, List.map_append, ih]
      simp only [List.map_cons, List.intercalate_cons_cons]
      rfl

/-- Entries that are written alike are written alike with commas between them. -/
theorem spelling_separated_congr {α : Type} {xs : List α} {f f' : α → List Piece}
    (h : ∀ x ∈ xs, (f x).map spelling = (f' x).map spelling) :
    (separated (xs.map f)).map spelling = (separated (xs.map f')).map spelling := by
  have hm : xs.map (List.map spelling ∘ f) = xs.map (List.map spelling ∘ f') :=
    List.map_congr_left h
  rw [spelling_separated, spelling_separated, List.map_map, List.map_map, hm]

/-- Entries that are written alike are written alike in parentheses. -/
theorem spelling_parenthesized_congr {α : Type} {xs : List α} {f f' : α → List Piece}
    (h : ∀ x ∈ xs, (f x).map spelling = (f' x).map spelling) :
    (parenthesized (xs.map f)).map spelling = (parenthesized (xs.map f')).map spelling := by
  unfold parenthesized
  rw [List.isEmpty_map, List.isEmpty_map]
  split
  · rfl
  · rw [List.map_cons, List.map_cons, List.map_append, List.map_append,
      spelling_separated_congr h]

/-- Entries that are written alike are written alike in a row. -/
theorem spelling_flatMap_congr {α : Type} {xs : List α} {f f' : α → List Piece}
    (h : ∀ x ∈ xs, (f x).map spelling = (f' x).map spelling) :
    (xs.flatMap f).map spelling = (xs.flatMap f').map spelling := by
  rw [List.map_flatMap, List.map_flatMap]
  exact List.flatMap_congr h

end Piece

section SameSpelling

variable {g : Value → Value}
  (hg : ∀ v, (g v).pieces.map Piece.spelling = v.pieces.map Piece.spelling)
include hg

theorem Argument.spelling_listPieces_map (as : List Argument) :
    (Piece.parenthesized ((as.map (Argument.map g)).map Argument.pieces)).map Piece.spelling =
      (Piece.parenthesized (as.map Argument.pieces)).map Piece.spelling := by
  rw [List.map_map]
  exact Piece.spelling_parenthesized_congr fun a _ => by simp [Argument.pieces, Argument.map, hg]

theorem Directive.spelling_listPieces_map (ds : List Directive) :
    (Directive.listPieces (ds.map (Directive.map g))).map Piece.spelling =
      (Directive.listPieces ds).map Piece.spelling := by
  rw [Directive.listPieces, Directive.listPieces, List.flatMap_map]
  refine Piece.spelling_flatMap_congr fun d _ => ?_
  simp only [Directive.pieces, Directive.map, List.map_cons, Argument.spelling_listPieces_map hg]

theorem VariableDefinition.spelling_pieces_map (v : VariableDefinition) :
    (v.map g).pieces.map Piece.spelling = v.pieces.map Piece.spelling := by
  cases hd : v.defaultValue <;>
    simp [VariableDefinition.pieces, VariableDefinition.map, Directive.spelling_listPieces_map hg,
      hd, hg]

theorem Field.spelling_pieces_map (f : Field) :
    (f.map g id).pieces.map Piece.spelling = f.pieces.map Piece.spelling := by
  simp only [Field.pieces, Field.map, List.map_append, List.map_cons, id_eq,
    Argument.spelling_listPieces_map hg, Directive.spelling_listPieces_map hg]

theorem Selection.spelling_pieces_map (s : Selection) :
    (s.map g id).pieces.map Piece.spelling = s.pieces.map Piece.spelling := by
  induction s with
  | leaf f => exact f.spelling_pieces_map hg
  | nested f set ih =>
    have hs := Piece.spelling_flatMap_congr ih
    simp only [Selection.map, Selection.pieces, List.map_append, List.map_cons,
      Field.spelling_pieces_map hg, Selection.mapSet_eq_map, Selection.listPieces_eq_flatMap,
      List.flatMap_map, hs]
  | spread s =>
    simp only [Selection.map, Selection.pieces, Spread.pieces, Spread.map, List.map_cons,
      Directive.spelling_listPieces_map hg]
  | inline head set ih =>
    have hs := Piece.spelling_flatMap_congr ih
    simp only [Selection.map, Selection.pieces, InlineHead.pieces, InlineHead.map,
      List.map_append, List.map_cons, Directive.spelling_listPieces_map hg,
      Selection.mapSet_eq_map, Selection.listPieces_eq_flatMap, List.flatMap_map, hs]

theorem Selection.spelling_setPieces_map (set : List Selection) :
    (Selection.setPieces (set.map (Selection.map g id))).map Piece.spelling =
      (Selection.setPieces set).map Piece.spelling := by
  have hs := Piece.spelling_flatMap_congr fun s (_ : s ∈ set) => s.spelling_pieces_map hg
  simp only [Selection.setPieces, List.map_cons, List.map_append,
    Selection.listPieces_eq_flatMap, List.flatMap_map, hs]

theorem Definition.spelling_pieces_map (x : Definition) :
    (x.map g id).pieces.map Piece.spelling = x.pieces.map Piece.spelling := by
  cases x with
  | operation op =>
    have hv : (Piece.parenthesized ((op.variableDefinitions.map (VariableDefinition.map g)).map
        VariableDefinition.pieces)).map Piece.spelling =
        (Piece.parenthesized (op.variableDefinitions.map VariableDefinition.pieces)).map
          Piece.spelling := by
      rw [List.map_map]
      exact Piece.spelling_parenthesized_congr fun v _ => v.spelling_pieces_map hg
    have hh : (op.map g id).isShorthand = op.isShorthand := by
      simp only [Operation.isShorthand, Operation.map, List.isEmpty_map]
      rfl
    simp only [Definition.map, Definition.pieces, Operation.pieces, hh, List.map_append]
    congr 1
    · split
      · rfl
      · simp only [Operation.headPieces, Operation.map, List.map_append, List.map_cons,
          Directive.spelling_listPieces_map hg, hv]
    · exact Selection.spelling_setPieces_map hg op.selections
  | fragment f =>
    simp only [Definition.map, Definition.pieces, Fragment.pieces, Fragment.map, List.map_cons,
      List.map_append, Directive.spelling_listPieces_map hg, Selection.spelling_setPieces_map hg]

/-- A document may be changed value by value to values that are written like the old ones. -/
theorem Document.print_map (d : Document) : (d.map g id).print = d.print := by
  have hd := Piece.spelling_flatMap_congr fun x (_ : x ∈ d.definitions) =>
    x.spelling_pieces_map hg
  rw [Document.print, Document.print, Document.reducedChars, Document.reducedChars,
    Document.pieces, Document.pieces, Document.map, List.flatMap_map, hd]

end SameSpelling

/-- A number as an integer; any other value as it is. -/
def Value.retyped : Value → Value
  | .float text => .int text
  | v => v

/-- A value with every number in it made an integer. -/
def Value.asInt : Value → Value := Value.mapLeaves Value.retyped

@[simp] theorem Value.asInt_list (items : List Value) :
    (Value.list items).asInt = .list (items.map Value.asInt) :=
  Value.mapLeaves_list _ items

@[simp] theorem Value.asInt_object (members : List (String × Value)) :
    (Value.object members).asInt = .object (members.map fun m => (m.1, m.2.asInt)) :=
  Value.mapLeaves_object _ members

/-- Numbers are written in the same way. -/
theorem Value.spelling_pieces_asInt (v : Value) :
    v.asInt.pieces.map Piece.spelling = v.pieces.map Piece.spelling := by
  induction v with
  | list items ih =>
    have hs := Piece.spelling_separated_congr ih
    simp only [Value.asInt_list, Value.pieces, Value.listPieces_eq_map, List.map_cons,
      List.map_append, List.map_map, Function.comp_def, hs]
  | object members ih =>
    have hs := @Piece.spelling_separated_congr _ members
      (fun m => .ofName m.1 :: .ofMark .colon :: m.2.asInt.pieces)
      (fun m => .ofName m.1 :: .ofMark .colon :: m.2.pieces)
      fun m hm => by
        rw [List.map_cons, List.map_cons, List.map_cons, List.map_cons, ih m hm]
    simp only [Value.asInt_object, Value.pieces, Value.memberPieces_eq_map, List.map_cons,
      List.map_append, List.map_map, Function.comp_def, hs]
  | _ => rfl

/-- A document is written like the one in which every number is an integer. -/
theorem Document.print_map_asInt (d : Document) : (d.map Value.asInt id).print = d.print :=
  d.print_map Value.spelling_pieces_asInt

end Safelist
