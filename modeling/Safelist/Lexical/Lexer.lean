import Safelist.Lexical.Number
import Safelist.Lexical.Quoted

/-!
# From text to tokens

Spaces, tabs, commas, line terminators, byte order marks and comments separate
lexemes and are dropped. Every error lies at the first character of the lexeme
in which it is found. Each lexeme takes at least one character, so the text is
used up.
-/

namespace Safelist.Lexical.Lexer

/-- Characters that separate lexemes and mean nothing. -/
def isIgnored (c : Char) : Bool :=
  c = ' ' || c = '\t' || c = ',' || c = '\n' || c = '\r' || c = '\uFEFF'

/-- Characters that end a comment. -/
def isLineEnd (c : Char) : Bool := c = '\n' || c = '\r'

/-- The number of characters of a comment after its number sign. -/
def commentLength (cs : List Char) : Nat := (cs.takeWhile fun c => !isLineEnd c).length

/-- The lexeme that begins with a character, and the number of characters it takes
after that one. -/
def lexeme (c : Char) (rest : List Char) : Except Problem (Lexeme × Nat) :=
  match Mark.ofChar? c with
  | some mark => .ok (.mark mark, 0)
  | none =>
    if c = '.' then
      match rest with
      | '.' :: '.' :: _ => .ok (.mark .dots, 2)
      | _ => .error .lonePeriod
    else if isNameStart c then
      let more := rest.takeWhile isNameChar
      .ok (.name (String.ofList (c :: more)), more.length)
    else if c = '-' || c.isDigit then
      (Number.scan (c :: rest)).map fun (number, n) => (number, n - 1)
    else if c = '"' then Quoted.scan rest
    else .error (.unexpectedCharacter c)

/-- The tokens of a text that begins at a position. -/
def scan (p : Position) (cs : List Char) : Except ReadError TokenStream :=
  match cs with
  | [] => .ok ⟨[], p⟩
  | c :: rest =>
    if isIgnored c then scan (p.past c rest.head?) rest
    else if c = '#' then
      let n := commentLength rest
      scan (p.advance (c :: rest) (n + 1)) (rest.drop n)
    else
      match lexeme c rest with
      | .error problem => .error (.malformed p problem)
      | .ok (found, n) =>
        (scan (p.advance (c :: rest) (n + 1)) (rest.drop n)).map fun stream =>
          { stream with tokens := ⟨found, p⟩ :: stream.tokens }
termination_by cs.length
decreasing_by all_goals simp only [List.length_cons, List.length_drop]; omega

/-- The tokens of a source text. -/
def tokenize (source : String) : Except ReadError TokenStream :=
  scan .start source.toList

end Safelist.Lexical.Lexer
