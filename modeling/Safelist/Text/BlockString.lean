/-!
# Values of block strings

The value of a block string depends on its lines alone: the indentation that
all lines after the first share is taken off those lines, and blank lines at
both ends are dropped. Line terminators of every spelling become line feeds.
-/

namespace Safelist.Text.BlockString

/-- Spaces and tabs, the only characters that count as indentation. -/
def isIndent (c : Char) : Bool := c = ' ' || c = '\t'

/-- A line is blank when it holds indentation only. -/
def isBlankLine (line : List Char) : Bool := line.all isIndent

/-- Split at line feeds, carriage returns, and carriage returns followed by line
feeds, each of the last counting once. The result is never empty. -/
def lines : List Char → List (List Char)
  | [] => [[]]
  | '\r' :: '\n' :: rest => [] :: lines rest
  | '\r' :: rest => [] :: lines rest
  | '\n' :: rest => [] :: lines rest
  | c :: rest =>
    match lines rest with
    | [] => [[c]]
    | line :: more => (c :: line) :: more

/-- The number of indentation characters a line begins with. -/
def indentation (line : List Char) : Nat := (line.takeWhile isIndent).length

/-- The least indentation of the lines that are not blank, if there is such a line. -/
def commonIndent (ls : List (List Char)) : Option Nat :=
  ((ls.filter fun line => !isBlankLine line).map indentation).min?

/-- Take the shared indentation off every line after the first. -/
def dedent : List (List Char) → List (List Char)
  | [] => []
  | first :: rest =>
    match commonIndent rest with
    | none => first :: rest
    | some n => first :: rest.map (List.drop n)

/-- Drop the blank lines at both ends. -/
def trimBlankLines (ls : List (List Char)) : List (List Char) :=
  ((ls.dropWhile isBlankLine).reverse.dropWhile isBlankLine).reverse

/-- The value of the raw text of a block string. -/
def value (raw : List Char) : List Char :=
  List.intercalate ['\n'] (trimBlankLines (dedent (lines raw)))

/-- Splitting always yields a line. -/
theorem lines_ne_nil (raw : List Char) : lines raw ≠ [] := by
  fun_cases lines raw <;> simp

end Safelist.Text.BlockString
