/-!
# Blank text

A text is blank when it holds white space only. The table gives the code points
with the property White_Space, as of Unicode 17.0.
-/

namespace Safelist.Text

/-- Ranges of the characters with the property White_Space, both ends included. -/
def whiteSpaceRanges : List (Nat × Nat) :=
  [(0x9, 0xd), (0x20, 0x20), (0x85, 0x85), (0xa0, 0xa0), (0x1680, 0x1680), (0x2000, 0x200a),
    (0x2028, 0x2029), (0x202f, 0x202f), (0x205f, 0x205f), (0x3000, 0x3000)]

/-- Whether a character is white space. -/
def isWhiteSpace (c : Char) : Bool :=
  whiteSpaceRanges.any fun range => range.1 ≤ c.toNat && c.toNat ≤ range.2

/-- Whether a text holds white space only, the empty text included. -/
def isBlank (text : String) : Bool := text.toList.all isWhiteSpace

end Safelist.Text
