import Safelist.Document.Grammar
import Safelist.Lexical.Lexer

/-!
# Reading documents

A document is read by running the grammar over the tokens of its text. A text
holds a document when the run ends between definitions after at least one.
-/

namespace Safelist

open Lexical

namespace Grammar

/-- The definitions read so far and the place reached. -/
structure State where
  /-- Complete definitions. -/
  definitions : List Definition
  /-- What is open. -/
  focus : Focus

namespace State

/-- The state before anything is read. -/
def initial : State := ⟨[], .between⟩

/-- The state after a lexeme, if it can stand here. -/
def next (s : State) (lexeme : Lexeme) : Option State :=
  match s.focus.next lexeme with
  | none => none
  | some (.to focus) => some { s with focus }
  | some (.complete definition) => some ⟨s.definitions ++ [definition], .between⟩

/-- The document that has been read if the text ends here. -/
def document? (s : State) : Option Document :=
  match s.focus with
  | .between => if s.definitions.isEmpty then none else some ⟨s.definitions⟩
  | _ => none

/-- Read tokens from a state on. Each token is used once, and the first that cannot
stand where it does is the error. -/
def run (s : State) (stop : Position) : List Token → Except ReadError Document
  | [] =>
    match s.document? with
    | some document => .ok document
    | none => .error (s.focus.error none stop)
  | token :: rest =>
    match s.next token.lexeme with
    | some s => s.run stop rest
    | none => .error (s.focus.error (some token.lexeme) token.position)

end State

end Grammar

namespace Document

/-- The document that a stream of tokens denotes. -/
def ofTokens (stream : TokenStream) : Except ReadError Document :=
  Grammar.State.initial.run stream.stop stream.tokens

/-- The document that a text denotes. -/
def parse (source : String) : Except ReadError Document := do
  ofTokens (← Lexer.tokenize source)

end Document

end Safelist
