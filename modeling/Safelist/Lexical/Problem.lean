import Safelist.Text.CharLiteral
import Safelist.Lexical.Lexeme

/-!
# What can be wrong with a document text

Each problem is a cause; its wording is fixed in one place. A reading error is
a problem at a position, or a definition of a kind that client documents may
not hold.
-/

namespace Safelist.Lexical

/-- What the grammar asks for at a place where only one thing can follow. -/
inductive Expected where
  /-- Some name. -/
  | name
  /-- A certain mark. -/
  | mark (mark : Mark)
  /-- A certain keyword. -/
  | keyword (word : String)
deriving DecidableEq

/-- The name of what is asked for in messages. -/
def Expected.describe : Expected → String
  | .name => "Name"
  | .mark m => (Lexeme.mark m).describe
  | .keyword word => "\"" ++ word ++ "\""

/-- Why a text is not a document. -/
inductive Problem where
  /-- One or two periods where three were meant. -/
  | lonePeriod
  /-- A digit directly after a leading zero. -/
  | digitAfterZero
  /-- No digit where a number needs one. -/
  | missingDigit (found : Option Char)
  /-- A number followed by a character that would continue it. -/
  | continuedNumber (found : Char)
  /-- A character that begins no lexeme. -/
  | unexpectedCharacter (found : Char)
  /-- A string that is not closed on its line, or a block string not closed at all. -/
  | unterminatedString
  /-- An unknown letter after a backslash. -/
  | unknownEscape (found : Option Char)
  /-- A code escape without four digits, or of half a surrogate pair. -/
  | badCodeEscape
  /-- A leading surrogate that is not followed by a trailing one. -/
  | unpairedSurrogate
  /-- A lexeme, or the end, that cannot stand here. -/
  | unexpected (found : Option Lexeme)
  /-- A lexeme, or the end, in place of the only thing that can stand here. -/
  | expected (what : Expected) (found : Option Lexeme)
  /-- A variable inside a constant value. -/
  | variableInConstant
deriving DecidableEq

/-- The wording of a problem. -/
def Problem.describe : Problem → String
  | .lonePeriod => "Unexpected \".\", did you mean \"...\"?"
  | .digitAfterZero => "Invalid number, unexpected digit after 0"
  | .missingDigit found =>
    "Invalid number, expected digit but got " ++ Text.CharLiteral.quotedOption found
  | .continuedNumber found =>
    "Invalid number, expected digit but got " ++ Text.CharLiteral.quoted found
  | .unexpectedCharacter found => "Unexpected character " ++ Text.CharLiteral.quoted found
  | .unterminatedString => "Unterminated string"
  | .unknownEscape found =>
    "Invalid character escape sequence: " ++ Text.CharLiteral.quotedOption found
  | .badCodeEscape => "Invalid Unicode escape sequence"
  | .unpairedSurrogate => "Invalid Unicode escape sequence: unpaired surrogate"
  | .unexpected found => "Unexpected " ++ describeFound found
  | .expected what found => "Expected " ++ what.describe ++ ", found " ++ describeFound found
  | .variableInConstant => "Unexpected variable in constant value"

/-- The first error met while a document is read. -/
inductive ReadError where
  /-- The text breaks a rule of the language at this position. -/
  | malformed (position : Position) (problem : Problem)
  /-- A definition begins with a keyword of the type system, or with a description. -/
  | unsupported (position : Position) (keyword : String)
deriving DecidableEq

namespace ReadError

/-- Where the error lies. -/
def position : ReadError → Position
  | .malformed position _ => position
  | .unsupported position _ => position

/-- The wording of an error. -/
def message : ReadError → String
  | .malformed position problem => "Syntax error at " ++ position.text ++ ": " ++ problem.describe
  | .unsupported position keyword =>
    "Unsupported definition '" ++ keyword ++ "' at " ++ position.text ++
      ": client documents may only contain operations and fragments"

end ReadError

end Safelist.Lexical
