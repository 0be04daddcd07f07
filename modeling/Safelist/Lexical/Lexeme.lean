import Safelist.Text.Escape
import Safelist.Lexical.Position

/-!
# Lexemes and tokens

A lexeme is a word, mark or literal of the language, with the values of strings
decoded. A token is a lexeme with the place at which it begins. The end of the
text is not a token: a token stream keeps its position beside the tokens.
-/

namespace Safelist.Lexical

/-- The marks of the language. -/
inductive Mark where
  | bang
  | dollar
  | ampersand
  | openParen
  | closeParen
  | dots
  | colon
  | equals
  | atSign
  | openBracket
  | closeBracket
  | openBrace
  | pipe
  | closeBrace
deriving DecidableEq

/-- The characters of a mark. -/
def Mark.spelling : Mark → List Char
  | .bang => ['!']
  | .dollar => ['$']
  | .ampersand => ['&']
  | .openParen => ['(']
  | .closeParen => [')']
  | .dots => ['.', '.', '.']
  | .colon => [':']
  | .equals => ['=']
  | .atSign => ['@']
  | .openBracket => ['[']
  | .closeBracket => [']']
  | .openBrace => ['\x7b']
  | .pipe => ['|']
  | .closeBrace => ['\x7d']

/-- The mark that consists of one character, if it is one. -/
def Mark.ofChar? : Char → Option Mark
  | '!' => some .bang
  | '$' => some .dollar
  | '&' => some .ampersand
  | '(' => some .openParen
  | ')' => some .closeParen
  | ':' => some .colon
  | '=' => some .equals
  | '@' => some .atSign
  | '[' => some .openBracket
  | ']' => some .closeBracket
  | '\x7b' => some .openBrace
  | '|' => some .pipe
  | '\x7d' => some .closeBrace
  | _ => none

/-- A word, mark or literal. -/
inductive Lexeme where
  /-- A mark. -/
  | mark (mark : Mark)
  /-- A name, which may be a keyword where one is expected. -/
  | name (text : String)
  /-- A number without fraction and exponent, as it was written. -/
  | int (text : String)
  /-- A number with a fraction or an exponent, as it was written. -/
  | float (text : String)
  /-- A string between single double quotes, decoded. -/
  | string (value : String)
  /-- A string between triple double quotes, decoded. -/
  | block (value : String)
deriving DecidableEq

namespace Lexeme

/-- A lexeme in reduced form. A block string is written as a plain one. -/
def spelling : Lexeme → List Char
  | .mark m => m.spelling
  | .name text => text.toList
  | .int text => text.toList
  | .float text => text.toList
  | .string value => Text.Escape.json.quote value.toList
  | .block value => Text.Escape.json.quote value.toList

/-- The name of a lexeme in messages. -/
def describe : Lexeme → String
  | .mark m => "\"" ++ String.ofList m.spelling ++ "\""
  | .name text => "Name \"" ++ text ++ "\""
  | .int text => "Int \"" ++ text ++ "\""
  | .float text => "Float \"" ++ text ++ "\""
  | .string _ => "String"
  | .block _ => "BlockString"

/-- What a name, number or string holds. -/
def content? : Lexeme → Option String
  | .mark _ => none
  | .name text => some text
  | .int text => some text
  | .float text => some text
  | .string value => some value
  | .block value => some value

end Lexeme

/-- The name of a lexeme in messages, or that of the end of the text. -/
def describeFound : Option Lexeme → String
  | some lexeme => lexeme.describe
  | none => "<EOF>"

/-- A lexeme with the place at which it begins. -/
structure Token where
  /-- What was read. -/
  lexeme : Lexeme
  /-- Where it begins. -/
  position : Position
deriving DecidableEq

/-- All tokens of a text. -/
structure TokenStream where
  /-- The tokens in order. -/
  tokens : List Token
  /-- The end of the text. -/
  stop : Position
deriving DecidableEq

/-- Characters of names after the first, and those that need a space between them
when they end and begin two lexemes in a row. -/
def isNameChar (c : Char) : Bool := c = '_' || c.isAlphanum

/-- Characters that begin a name. -/
def isNameStart (c : Char) : Bool := c = '_' || c.isAlpha

end Safelist.Lexical
