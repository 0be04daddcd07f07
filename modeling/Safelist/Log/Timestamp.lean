/-!
# Timestamps

A point in time as date and time of day in universal time, to the millisecond.
Days are counted in eras of four hundred years that begin on the first of March,
so a leap day is always the last day of its year.
-/

namespace Safelist.Log.Timestamp

/-- A date. -/
structure Date where
  /-- The year. -/
  year : Nat
  /-- The month, counted from one. -/
  month : Nat
  /-- The day of the month, counted from one. -/
  day : Nat
deriving DecidableEq

/-- The number of days in four hundred years. -/
def daysPerEra : Nat := 146097

/-- The date of a day, counted from the first of January 1970. -/
def dateOfDay (day : Nat) : Date :=
  let shifted := day + 719468
  let era := shifted / daysPerEra
  let ofEra := shifted % daysPerEra
  let yearOfEra := (ofEra - ofEra / 1460 + ofEra / 36524 - ofEra / 146096) / 365
  let ofYear := ofEra - (365 * yearOfEra + yearOfEra / 4 - yearOfEra / 100)
  let fromMarch := (5 * ofYear + 2) / 153
  let month := if fromMarch < 10 then fromMarch + 3 else fromMarch - 9
  let year := yearOfEra + era * 400
  ⟨if month ≤ 2 then year + 1 else year, month, ofYear - (153 * fromMarch + 2) / 5 + 1⟩

/-- A number in decimal digits, with zeros in front up to a width. -/
def padded (width n : Nat) : String := String.ofList ((Nat.toDigits 10 n).leftpad width '0')

/-- The text of a point in time, given in milliseconds since the beginning of 1970. -/
def text (milliseconds : Nat) : String :=
  let date := dateOfDay (milliseconds / 86400000)
  let ofDay := milliseconds % 86400000
  padded 4 date.year ++ "-" ++ padded 2 date.month ++ "-" ++ padded 2 date.day ++ "T" ++
    padded 2 (ofDay / 3600000) ++ ":" ++ padded 2 (ofDay / 60000 % 60) ++ ":" ++
    padded 2 (ofDay / 1000 % 60) ++ "." ++ padded 3 (ofDay % 1000) ++ "Z"

end Safelist.Log.Timestamp
