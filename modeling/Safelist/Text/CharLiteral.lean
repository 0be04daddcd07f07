import Safelist.Text.Hex
import Safelist.Text.Printable

/-!
# Characters in messages

A character in a message stands between single quotes, escaped when it would
not be visible there. A character that may be absent says which it is.
-/

namespace Safelist.Text.CharLiteral

/-- A character as it is written between single quotes. A double quote needs no
escape there. -/
def escape (c : Char) : List Char :=
  match c with
  | '\x00' => ['\\', '0']
  | '\t' => ['\\', 't']
  | '\r' => ['\\', 'r']
  | '\n' => ['\\', 'n']
  | '\'' => ['\\', '\'']
  | '\\' => ['\\', '\\']
  | c =>
    if isShownByCode c then ['\\', 'u', '\x7b'] ++ Hex.digits c.toNat ++ ['\x7d'] else [c]

/-- A character between single quotes. -/
def quoted (c : Char) : String := String.ofList ('\'' :: (escape c ++ ['\'']))

/-- A character that may be absent. -/
def quotedOption : Option Char → String
  | some c => "Some(" ++ quoted c ++ ")"
  | none => "None"

end Safelist.Text.CharLiteral
