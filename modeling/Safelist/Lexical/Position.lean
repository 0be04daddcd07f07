/-!
# Positions in a text

Lines and columns count from one, columns in characters. A line ends at a line
feed, at a carriage return, or at the two in a row, which count once.
-/

namespace Safelist.Lexical

/-- A line and a column, both counted from one. -/
structure Position where
  /-- The number of line terminators before this place, plus one. -/
  line : Nat
  /-- The number of characters since the last line terminator, plus one. -/
  column : Nat
deriving DecidableEq

namespace Position

/-- The beginning of a text. -/
def start : Position := ⟨1, 1⟩

/-- The position after a character, given the character that follows it. A carriage
return before a line feed leaves the position to the line feed. -/
def past (p : Position) (c : Char) (next : Option Char) : Position :=
  if c = '\n' then ⟨p.line + 1, 1⟩
  else if c = '\r' then if next = some '\n' then p else ⟨p.line + 1, 1⟩
  else ⟨p.line, p.column + 1⟩

/-- The position after the first characters of a text, as many as are asked for. -/
def advance (p : Position) : List Char → Nat → Position
  | _, 0 => p
  | [], _ + 1 => p
  | c :: rest, n + 1 => (p.past c rest.head?).advance rest n

/-- Line and column with a colon between them. -/
def text (p : Position) : String := s!"{p.line}:{p.column}"

/-- No character leaves the position where it is. -/
@[simp] theorem advance_zero (p : Position) (cs : List Char) : p.advance cs 0 = p := by
  cases cs <;> rfl

/-- One step ahead is the step past one character. -/
@[simp] theorem advance_cons (p : Position) (c : Char) (rest : List Char) (n : Nat) :
    p.advance (c :: rest) (n + 1) = (p.past c rest.head?).advance rest n := rfl

end Position

end Safelist.Lexical
