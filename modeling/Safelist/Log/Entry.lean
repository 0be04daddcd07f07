import Safelist.Text.Escape

/-!
# Log entries

An entry is an event with its severity and named values. It is written as one
line: a JSON object with the event, the severity and the time first, and then
the values in the order of their names.
-/

namespace Safelist.Log

/-- How much an entry matters. -/
inductive Severity where
  /-- Detail about single items. -/
  | trace
  /-- Normal progress. -/
  | info
  /-- Input that was passed over, or a loss of quality. -/
  | warn
  /-- A failure. -/
  | error
deriving DecidableEq

namespace Severity

/-- The place of a severity in their order. -/
def rank : Severity → Nat
  | .trace => 0
  | .info => 1
  | .warn => 2
  | .error => 3

/-- The word for a severity. -/
def word : Severity → String
  | .trace => "TRACE"
  | .info => "INFO"
  | .warn => "WARN"
  | .error => "ERROR"

/-- Whether entries of a severity are written when this one is the least that is. -/
def admits (least severity : Severity) : Bool := least.rank ≤ severity.rank

end Severity

/-- An event with its severity and named values. -/
structure Entry where
  /-- How much it matters. -/
  severity : Severity
  /-- What happened. -/
  event : String
  /-- Names and their values, in the order in which they were given. -/
  fields : List (String × String)
deriving DecidableEq

namespace Entry

/-- The named values in the order of their names. Equal names keep the order in which they
were given. -/
def fieldsByName (e : Entry) : List (String × String) :=
  e.fields.mergeSort fun a b => decide (a.1 ≤ b.1)

/-- A name and a value, both quoted. -/
def member (name value : List Char) : List Char :=
  Text.Escape.log.quote name ++ ':' :: Text.Escape.log.quote value

/-- The characters of an entry's line, made at a time. -/
def lineChars (time : List Char) (e : Entry) : List Char :=
  '\x7b' :: (member "event".toList e.event.toList ++
    ',' :: (member "severity".toList e.severity.word.toList ++
    ',' :: (member "ts".toList time ++
    (e.fieldsByName.flatMap fun f => ',' :: member f.1.toList f.2.toList) ++ ['\x7d', '\n'])))

/-- The line of an entry that was made at a time. -/
def line (time : String) (e : Entry) : String := String.ofList (e.lineChars time.toList)

end Entry

end Safelist.Log
