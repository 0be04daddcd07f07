import Safelist.Document.Basic
import Safelist.Lexical.Lexeme

/-!
# Writing documents in reduced form

A document is first taken apart into pieces: its lexemes in order, with commas
where the reduced form has them. The pieces are then written in a row with a
single space between two name characters that would otherwise touch. Strings
are written in one plain spelling, so white space inside them is kept.
-/

namespace Safelist

open Lexical

/-- A lexeme or a separating comma. -/
inductive Piece where
  /-- A lexeme. -/
  | lexeme (lexeme : Lexeme)
  /-- A comma between two entries of a list. -/
  | comma
deriving DecidableEq

namespace Piece

/-- The characters of a piece. -/
def spelling : Piece → List Char
  | .lexeme l => l.spelling
  | .comma => [',']

/-- The lexeme that a piece is, unless it is a comma. -/
def lexeme? : Piece → Option Lexeme
  | .lexeme l => some l
  | .comma => none

/-- A mark as a piece. -/
def ofMark (m : Mark) : Piece := .lexeme (.mark m)

/-- A name as a piece. -/
def ofName (name : String) : Piece := .lexeme (.name name)

/-- Entries with a comma between any two of them. -/
def separated (entries : List (List Piece)) : List Piece := List.intercalate [.comma] entries

/-- Entries in parentheses; no parentheses without entries. -/
def parenthesized (entries : List (List Piece)) : List Piece :=
  if entries.isEmpty then []
  else ofMark .openParen :: (separated entries ++ [ofMark .closeParen])

end Piece

/-- The pieces of a type. -/
def TypeRef.pieces : TypeRef → List Piece
  | .named name => [.ofName name]
  | .list item => .ofMark .openBracket :: (item.pieces ++ [.ofMark .closeBracket])
  | .nonNull inner => inner.pieces ++ [.ofMark .bang]

mutual

/-- The pieces of a value. -/
def Value.pieces : Value → List Piece
  | .var name => [.ofMark .dollar, .ofName name]
  | .int text => [.lexeme (.int text)]
  | .float text => [.lexeme (.float text)]
  | .string value _ => [.lexeme (.string value)]
  | .boolean true => [.ofName "true"]
  | .boolean false => [.ofName "false"]
  | .null => [.ofName "null"]
  | .enum name => [.ofName name]
  | .list items =>
    .ofMark .openBracket :: (Piece.separated (Value.listPieces items) ++ [.ofMark .closeBracket])
  | .object members =>
    .ofMark .openBrace :: (Piece.separated (Value.memberPieces members) ++ [.ofMark .closeBrace])

/-- The pieces of each value of a list. -/
def Value.listPieces : List Value → List (List Piece)
  | [] => []
  | item :: rest => item.pieces :: Value.listPieces rest

/-- The pieces of each member of an input object. -/
def Value.memberPieces : List (String × Value) → List (List Piece)
  | [] => []
  | (name, value) :: rest =>
    (.ofName name :: .ofMark .colon :: value.pieces) :: Value.memberPieces rest

end

/-- The pieces of an argument. -/
def Argument.pieces (a : Argument) : List Piece :=
  .ofName a.name :: .ofMark .colon :: a.value.pieces

/-- The pieces of a directive. -/
def Directive.pieces (d : Directive) : List Piece :=
  .ofMark .atSign :: .ofName d.name :: Piece.parenthesized (d.arguments.map Argument.pieces)

/-- The pieces of directives in a row. -/
def Directive.listPieces (ds : List Directive) : List Piece := ds.flatMap Directive.pieces

/-- The pieces of a variable's declaration. -/
def VariableDefinition.pieces (v : VariableDefinition) : List Piece :=
  .ofMark .dollar :: .ofName v.name :: .ofMark .colon :: (v.type.pieces ++
    (match v.defaultValue with
      | some value => .ofMark .equals :: value.pieces
      | none => []) ++
    Directive.listPieces v.directives)

/-- The pieces of a field before its selection set. -/
def Field.pieces (f : Field) : List Piece :=
  (match f.aliasName with
    | some aliasName => [.ofName aliasName, .ofMark .colon]
    | none => []) ++
  .ofName f.name :: (Piece.parenthesized (f.arguments.map Argument.pieces) ++
    Directive.listPieces f.directives)

/-- The pieces of a fragment's use. -/
def Spread.pieces (s : Spread) : List Piece :=
  .ofMark .dots :: .ofName s.name :: Directive.listPieces s.directives

/-- The pieces of an inline fragment before its selection set. -/
def InlineHead.pieces (head : InlineHead) : List Piece :=
  .ofMark .dots :: ((match head.typeCondition with
    | some type => [.ofName "on", .ofName type]
    | none => []) ++
  Directive.listPieces head.directives)

mutual

/-- The pieces of a selection. -/
def Selection.pieces : Selection → List Piece
  | .leaf field => field.pieces
  | .nested field selections =>
    field.pieces ++ .ofMark .openBrace :: (Selection.listPieces selections ++ [.ofMark .closeBrace])
  | .spread use => use.pieces
  | .inline head selections =>
    head.pieces ++ .ofMark .openBrace :: (Selection.listPieces selections ++ [.ofMark .closeBrace])

/-- The pieces of selections in a row. -/
def Selection.listPieces : List Selection → List Piece
  | [] => []
  | s :: rest => s.pieces ++ Selection.listPieces rest

end

/-- The pieces of a selection set with its braces. -/
def Selection.setPieces (selections : List Selection) : List Piece :=
  .ofMark .openBrace :: (Selection.listPieces selections ++ [.ofMark .closeBrace])

namespace Operation

/-- An anonymous query without variables and directives is written without its keyword. -/
def isShorthand (op : Operation) : Bool :=
  op.kind = .query && op.name.isNone && op.variableDefinitions.isEmpty && op.directives.isEmpty

/-- The pieces of an operation before its selection set. -/
def headPieces (op : Operation) : List Piece :=
  .ofName op.kind.keyword :: (op.name.toList.map Piece.ofName ++
    Piece.parenthesized (op.variableDefinitions.map VariableDefinition.pieces) ++
    Directive.listPieces op.directives)

/-- The pieces of an operation. -/
def pieces (op : Operation) : List Piece :=
  (if op.isShorthand then [] else op.headPieces) ++ Selection.setPieces op.selections

end Operation

/-- The pieces of a fragment. -/
def Fragment.pieces (f : Fragment) : List Piece :=
  .ofName "fragment" :: .ofName f.name :: .ofName "on" :: .ofName f.typeCondition ::
    (Directive.listPieces f.directives ++ Selection.setPieces f.selections)

/-- The pieces of a definition. -/
def Definition.pieces : Definition → List Piece
  | .operation op => op.pieces
  | .fragment f => f.pieces

namespace Document

/-- The pieces of a document. -/
def pieces (d : Document) : List Piece := d.definitions.flatMap Definition.pieces

/-- The lexemes of a document's reduced form. -/
def lexemes (d : Document) : List Lexeme := d.pieces.filterMap Piece.lexeme?

end Document

/-- Whether two characters in a row need a space between them. -/
def needsSpace : Option Char → Option Char → Bool
  | some last, some first => isNameChar last && isNameChar first
  | _, _ => false

/-- Texts in a row after a last character, with a space where one is needed. An empty
text needs none and leaves the last character as it is. -/
def joinTexts (last : Option Char) : List (List Char) → List Char
  | [] => []
  | text :: rest =>
    (if needsSpace last text.head? then [' '] else []) ++
      text ++ joinTexts (text.getLast?.or last) rest

namespace Document

/-- The characters of a document's reduced form. -/
def reducedChars (d : Document) : List Char := joinTexts none (d.pieces.map Piece.spelling)

/-- A document in reduced form. -/
def print (d : Document) : String := String.ofList d.reducedChars

end Document

end Safelist
