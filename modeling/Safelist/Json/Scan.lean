import Safelist.Json.Number
import Safelist.Lexical.Quoted

/-!
# Reading JSON

A scan reads a value at the beginning of a text and says how many characters it
took. The first fault met from left to right is the outcome: the text ends too
early, it is not JSON, or it is JSON of another shape than the one asked for.
Values that nobody asks for are passed over; they must be JSON, but neither the
size of their numbers nor the pairing of their surrogates matters.
-/

namespace Safelist.Json

/-- Why a text does not hold the value asked for. -/
inductive Fault where
  /-- The text ends too early. -/
  | early
  /-- The text is not JSON. -/
  | malformed
  /-- The text is JSON of another shape. -/
  | shape
deriving DecidableEq

/-- The wording of a fault. -/
def Fault.message : Fault → String
  | .early => "unexpected end of the text"
  | .malformed => "the text is not JSON"
  | .shape => "the value has another shape"

/-- A way of reading: the value read and the number of characters it took. -/
def Scan (α : Type) : Type := List Char → Except Fault (α × Nat)

namespace Scan

/-- Read nothing. -/
def ofValue {α : Type} (a : α) : Scan α := fun _ => .ok (a, 0)

/-- Read one thing and then, from where it ended, another. -/
def andThen {α β : Type} (first : Scan α) (second : α → Scan β) : Scan β := fun cs =>
  match first cs with
  | .error fault => .error fault
  | .ok (a, n) =>
    match second a (cs.drop n) with
    | .error fault => .error fault
    | .ok (b, m) => .ok (b, n + m)

instance : Monad Scan where
  pure := ofValue
  bind := andThen

/-- Fail. -/
def fail {α : Type} (fault : Fault) : Scan α := fun _ => .error fault

/-- White space between lexemes. -/
def isSpace (c : Char) : Bool := c = ' ' || c = '\n' || c = '\t' || c = '\r'

/-- Pass over white space. -/
def spaces : Scan Unit := fun cs => .ok ((), (cs.takeWhile isSpace).length)

/-- Look at the next character without reading it. -/
def peek : Scan (Option Char) := fun cs => .ok (cs.head?, 0)

/-- Read one character that has been looked at. -/
def step : Scan Unit := fun cs => .ok ((), min 1 cs.length)

/-- Read certain letters. -/
def letters : List Char → Scan Unit
  | [], _ => .ok ((), 0)
  | _ :: _, [] => .error .early
  | letter :: more, c :: rest =>
    if c = letter then (letters more rest).map fun (u, n) => (u, n + 1) else .error .malformed

/-- Four hexadecimal digits. A text too short for four bytes ends too early. -/
def codeUnit : Scan Nat := fun cs =>
  match Text.Hex.four? cs with
  | some (code, _) => .ok (code, 4)
  | none => if (String.ofList cs).utf8ByteSize < 4 then .error .early else .error .malformed

/-- The character of a code escape, after its letter. -/
def codeEscape : Scan Char := do
  let code ← codeUnit
  if Lexical.Quoted.isTrailing code then fail .malformed
  else if Lexical.Quoted.isLeading code then
    letters ['\\', 'u']
    let low ← codeUnit
    if Lexical.Quoted.isTrailing low then
      pure (Lexical.Quoted.joinSurrogates code low)
    else fail .malformed
  else pure (Char.ofNat code)

/-- The character of an escape, after its backslash. The code escape is read by a scan of
its own. -/
def escape (code : Scan Char) : Scan Char := fun cs =>
  match cs with
  | [] => .error .early
  | '"' :: _ => .ok ('"', 1)
  | '\\' :: _ => .ok ('\\', 1)
  | '/' :: _ => .ok ('/', 1)
  | 'b' :: _ => .ok ('\x08', 1)
  | 'f' :: _ => .ok ('\x0c', 1)
  | 'n' :: _ => .ok ('\n', 1)
  | 'r' :: _ => .ok ('\r', 1)
  | 't' :: _ => .ok ('\t', 1)
  | 'u' :: rest => (code rest).map fun (c, n) => (c, n + 1)
  | _ => .error .malformed

/-- The characters of a text, after its opening quote, the closing quote included. -/
def textBody (code : Scan Char) (cs : List Char) : Except Fault (List Char × Nat) :=
  match cs with
  | [] => .error .early
  | c :: rest =>
    if c = '"' then .ok ([], 1)
    else if c = '\\' then
      match escape code rest with
      | .error fault => .error fault
      | .ok (decoded, n) =>
        (textBody code (rest.drop n)).map fun (more, m) => (decoded :: more, n + m + 1)
    else if Text.Escape.isLowControl c then .error .malformed
    else (textBody code rest).map fun (more, m) => (c :: more, m + 1)
termination_by cs.length
decreasing_by all_goals simp only [List.length_cons, List.length_drop]; omega

/-- A text, after its opening quote. -/
def text : Scan String := fun cs =>
  (textBody codeEscape cs).map fun (t, n) => (String.ofList t, n)

/-- A code escape that nobody asks for: any four digits. -/
def anyCode : Scan Char := fun cs => (codeUnit cs).map fun (_, n) => ('?', n)

/-- A text that nobody asks for, after its opening quote. -/
def skipText : Scan Unit := fun cs => (textBody anyCode cs).map fun (_, n) => ((), n)

/-- Some digits; the fault is that of a text that ends where one is needed. -/
def digits (atEnd : Fault) : Scan (List Char) := fun cs =>
  match cs.takeWhile Char.isDigit with
  | [] => .error (if cs.isEmpty then atEnd else .malformed)
  | ds => .ok (ds, ds.length)

/-- The integer part of a number: a lone zero, or digits that do not begin with one. -/
def wholePart (atEnd : Fault) : Scan (List Char) := do
  let ds ← digits atEnd
  match ds with
  | '0' :: _ :: _ => fail .malformed
  | ds => pure ds

/-- The fraction of a number, if there is a point. -/
def fractionPart (atEnd : Fault) : Scan (Option (List Char)) := do
  if (← peek) = some '.' then
    step
    some <$> digits atEnd
  else pure none

/-- The exponent of a number, if there is its letter. -/
def exponentPart (atEnd : Fault) : Scan (Option (Bool × List Char)) := do
  match ← peek with
  | some 'e' | some 'E' =>
    step
    let negative ← match ← peek with
      | some '-' => do step; pure true
      | some '+' => do step; pure false
      | _ => pure false
    let ds ← digits atEnd
    pure (some (negative, ds))
  | _ => pure none

/-- A number, after white space. -/
def literal (atEnd : Fault) : Scan Number := do
  let negative ← if (← peek) = some '-' then do step; pure true else pure false
  let whole ← wholePart atEnd
  let fraction ← fractionPart atEnd
  let exponent ← exponentPart atEnd
  pure ⟨negative, whole, fraction, exponent⟩

/-- A number that is asked for. -/
def number : Scan Number := do
  let n ← literal .early
  if n.isTooLarge then fail .malformed else pure n

/-- A number that nobody asks for. -/
def skipNumber : Scan Unit := do
  let _ ← literal .malformed
  pure ()

/-- Whether a number begins with this character. -/
def beginsNumber (c : Char) : Bool := c = '-' || c.isDigit

/-- The fault of a value that is there in place of another. What can be read of a word, a
number or a text must still be well-formed. -/
def mismatch {α : Type} : Scan α := do
  match ← peek with
  | none => fail .early
  | some 'n' => do letters "null".toList; fail .shape
  | some 't' => do letters "true".toList; fail .shape
  | some 'f' => do letters "false".toList; fail .shape
  | some '"' => do step; let _ ← text; fail .shape
  | some '[' => fail .shape
  | some '\x7b' => fail .shape
  | some c =>
    if beginsNumber c then do let _ ← number; fail .shape else fail .malformed

/-- A bracket that is open in a value that is passed over. -/
inductive Bracket where
  /-- That of a list. -/
  | list
  /-- That of an object. -/
  | object
deriving DecidableEq

/-- What comes next in a value that is passed over. -/
inductive Turn where
  /-- A value. -/
  | value
  /-- An item, a key, or the closing bracket of the bracket just opened. -/
  | first
  /-- A comma or the closing bracket. -/
  | more
  /-- A key. -/
  | key
  /-- A colon. -/
  | colon
deriving DecidableEq

/-- What comes where an entry of a bracket begins. -/
def Bracket.entry : Bracket → Turn
  | .list => .value
  | .object => .key

/-- The character that closes a bracket. -/
def Bracket.closing : Bracket → Char
  | .list => ']'
  | .object => '\x7d'

/-- Pass over a word, a number or a text that begins with this character. The count is
that of the characters after it. -/
def skipScalar (c : Char) : Scan Unit := fun rest =>
  if c = 'n' then letters "ull".toList rest
  else if c = 't' then letters "rue".toList rest
  else if c = 'f' then letters "alse".toList rest
  else if c = '"' then skipText rest
  else if beginsNumber c then (skipNumber (c :: rest)).map fun (u, n) => (u, n - 1)
  else .error .malformed

/-- The order of turns at one character: the first entry of a bracket is looked at once
more, as an entry. -/
def Turn.rank : Turn → Nat
  | .first => 1
  | _ => 0

/-- Pass over the rest of a value inside open brackets, the innermost first; the count is
that of the characters up to its end. -/
def skipFrom (turn : Turn) (brackets : List Bracket) (cs : List Char) : Except Fault Nat :=
  match cs with
  | [] => .error .early
  | c :: rest =>
    if isSpace c then (skipFrom turn brackets rest).map (· + 1)
    else
      match turn, brackets with
      | .value, brackets =>
        if c = '[' then (skipFrom .first (.list :: brackets) rest).map (· + 1)
        else if c = '\x7b' then (skipFrom .first (.object :: brackets) rest).map (· + 1)
        else
          match skipScalar c rest with
          | .error fault => .error fault
          | .ok (_, n) =>
            if brackets.isEmpty then .ok (n + 1)
            else (skipFrom .more brackets (rest.drop n)).map (· + (n + 1))
      | .key, brackets =>
        if c = '"' then
          match skipText rest with
          | .error fault => .error fault
          | .ok (_, n) => (skipFrom .colon brackets (rest.drop n)).map (· + (n + 1))
        else .error .malformed
      | .colon, brackets =>
        if c = ':' then (skipFrom .value brackets rest).map (· + 1) else .error .malformed
      | .first, bracket :: outer =>
        if c = bracket.closing then
          if outer.isEmpty then .ok 1 else (skipFrom .more outer rest).map (· + 1)
        else if bracket = .list then skipFrom .value (bracket :: outer) (c :: rest)
        else skipFrom .key (bracket :: outer) (c :: rest)
      | .more, bracket :: outer =>
        if c = bracket.closing then
          if outer.isEmpty then .ok 1 else (skipFrom .more outer rest).map (· + 1)
        else if c = ',' then (skipFrom bracket.entry (bracket :: outer) rest).map (· + 1)
        else .error .malformed
      | .first, [] => .error .malformed
      | .more, [] => .error .malformed
termination_by (cs.length, turn.rank)
decreasing_by
  all_goals simp_wf
  all_goals rw [Prod.lex_def]
  all_goals first
    | (left; omega)
    | (right; exact ⟨rfl, Nat.zero_lt_one⟩)

/-- Pass over a value that nobody asks for. -/
def skip : Scan Unit := fun cs => (skipFrom .value [] cs).map fun n => ((), n)

end Scan

end Safelist.Json
