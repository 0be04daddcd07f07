import Safelist.Text.Hex

/-!
# Escaped text between double quotes

A style says which characters get a letter after a backslash and which are
written by their four-digit code; every other character stands for itself.
Two styles are used: the one of JSON documents and the wider one of log lines.
-/

namespace Safelist.Text

/-- A way of writing text between double quotes. -/
structure Escape where
  /-- The letter that stands after a backslash for this character, if it has one. -/
  short : Char → Option Char
  /-- Whether a character without a letter is written by its code. -/
  coded : Char → Bool

namespace Escape

/-- A character as it is written between the quotes. -/
def char (style : Escape) (c : Char) : List Char :=
  match style.short c with
  | some letter => ['\\', letter]
  | none => if style.coded c then '\\' :: 'u' :: Hex.four c.toNat else [c]

/-- A text as it is written between the quotes. -/
def body (style : Escape) (text : List Char) : List Char := text.flatMap style.char

/-- A text with its quotes. -/
def quote (style : Escape) (text : List Char) : List Char := '"' :: (style.body text ++ ['"'])

/-- Control characters of the first block, U+0000 to U+001F. -/
def isLowControl (c : Char) : Bool := c.toNat < 0x20

/-- All control characters: U+0000 to U+001F and U+007F to U+009F. -/
def isControl (c : Char) : Bool := c.toNat < 0x20 || (0x7f ≤ c.toNat && c.toNat < 0xa0)

/-- JSON documents: every short escape but that of the slash, and codes for the
other characters below U+0020. -/
def json : Escape where
  short
    | '"' => some '"'
    | '\\' => some '\\'
    | '\x08' => some 'b'
    | '\x0c' => some 'f'
    | '\n' => some 'n'
    | '\r' => some 'r'
    | '\t' => some 't'
    | _ => none
  coded := isLowControl

/-- Log lines: short escapes for the quote, the backslash and the characters that
end or align lines, and codes for every other control character. -/
def log : Escape where
  short
    | '"' => some '"'
    | '\\' => some '\\'
    | '\n' => some 'n'
    | '\r' => some 'r'
    | '\t' => some 't'
    | _ => none
  coded := isControl

/-- The empty text has an empty body. -/
@[simp] theorem body_nil (style : Escape) : style.body [] = [] := rfl

/-- A body is written character by character. -/
@[simp] theorem body_cons (style : Escape) (c : Char) (text : List Char) :
    style.body (c :: text) = style.char c ++ style.body text := rfl

/-- The body of two texts in a row is the two bodies in a row. -/
theorem body_append (style : Escape) (first second : List Char) :
    style.body (first ++ second) = style.body first ++ style.body second :=
  List.flatMap_append

end Escape

end Safelist.Text
