import Safelist.Lexical.Problem

/-!
# Numbers

A number is an optional minus sign, an integer part without leading zeros, and
an optional fraction and exponent, each with at least one digit. It may not be
followed directly by a digit, a period, an underscore or a letter.
-/

namespace Safelist.Lexical.Number

/-- The digits at the beginning of a text and what follows them. There must be one. -/
def digits (cs : List Char) : Except Problem (List Char × List Char) :=
  match cs.takeWhile Char.isDigit with
  | [] => .error (.missingDigit cs.head?)
  | ds => .ok (ds, cs.dropWhile Char.isDigit)

/-- A minus sign, if there is one. -/
def sign : List Char → List Char × List Char
  | '-' :: rest => (['-'], rest)
  | cs => ([], cs)

/-- A lone zero, or digits of which the first is not zero. -/
def integerPart : List Char → Except Problem (List Char × List Char)
  | '0' :: rest =>
    if rest.head?.any Char.isDigit then .error .digitAfterZero else .ok (['0'], rest)
  | cs => digits cs

/-- A period with digits, if a period follows. -/
def fraction : List Char → Except Problem (List Char × List Char)
  | '.' :: rest => do
    let (ds, rest) ← digits rest
    pure ('.' :: ds, rest)
  | cs => pure ([], cs)

/-- The sign of an exponent, if there is one. -/
def exponentSign : List Char → List Char × List Char
  | '+' :: rest => (['+'], rest)
  | '-' :: rest => (['-'], rest)
  | cs => ([], cs)

/-- The letter of an exponent with an optional sign and digits, if the letter follows. -/
def exponent : List Char → Except Problem (List Char × List Char)
  | [] => pure ([], [])
  | c :: rest =>
    if c = 'e' || c = 'E' then do
      let (sign, rest) := exponentSign rest
      let (ds, rest) ← digits rest
      pure (c :: sign ++ ds, rest)
    else pure ([], c :: rest)

/-- Characters that may not directly follow a number. A digit cannot follow one,
because it would have been read. -/
def continues (c : Char) : Bool := c = '.' || c = '_' || c.isAlpha

/-- The number at the beginning of a text and the number of its characters. -/
def scan (cs : List Char) : Except Problem (Lexeme × Nat) := do
  let (sign, rest) := sign cs
  let (whole, rest) ← integerPart rest
  let (fraction, rest) ← fraction rest
  let (exponent, rest) ← exponent rest
  let text := sign ++ whole ++ fraction ++ exponent
  match rest.head? with
  | some c =>
    if continues c then throw (.continuedNumber c)
  | none => pure ()
  let lexeme : String → Lexeme := if fraction.isEmpty && exponent.isEmpty then .int else .float
  pure (lexeme (String.ofList text), text.length)

end Safelist.Lexical.Number
