/-!
# Numbers in JSON

A number is kept as it was written. Its magnitude is that of a double which is
found in three roundings: the leading digits, as many as fit into sixty-four
bits, are rounded, a power of ten is rounded, and so is the product of the two.
Digits that do not fit count by their places only. A number is too large when
that product is infinite; a negative power only makes it smaller.
-/

namespace Safelist.Json

/-- A number: its sign, its digits, those after the point, and its exponent. -/
structure Number where
  /-- Whether a minus sign stands before it. -/
  negative : Bool
  /-- The digits of its integer part. -/
  whole : List Char
  /-- The digits after the point, if there is a point. -/
  fraction : Option (List Char)
  /-- The sign and the digits of the exponent, if there is one; true means negative. -/
  exponent : Option (Bool × List Char)

namespace Number

/-- A number with one more decimal digit at its end. -/
def push (n : Nat) (digit : Char) : Nat := n * 10 + (digit.toNat - '0'.toNat)

/-- The value of decimal digits. -/
def decimal (ds : List Char) : Nat := ds.foldl push 0

/-- A number with more decimal digits at its end, up to the first that would take it out
of sixty-four bits, and the digits from there on. -/
def fill (n : Nat) : List Char → Nat × List Char
  | [] => (n, [])
  | d :: rest => if push n d < UInt64.size then fill (push n d) rest else (n, d :: rest)

/-- The power of ten that the exponent asks for. -/
def power (n : Number) : Int :=
  match n.exponent with
  | none => 0
  | some (true, ds) => - (decimal ds : Int)
  | some (false, ds) => decimal ds

/-- The leading digits as a number, and the power of ten that it is to be multiplied by.
After an integer part that does not fit, digits of the fraction may still be taken. -/
def scaled (n : Number) : Nat × Int :=
  let (whole, dropped) := fill 0 n.whole
  let fraction := n.fraction.getD []
  let (leading, unread) := fill whole fraction
  (leading, n.power + dropped.length + unread.length - fraction.length)

/-- The double nearest to a natural number, of two equally near ones that with an even last
bit. The number of bits before the point is not limited. -/
def nearestDouble (n : Nat) : Nat :=
  let unit := Nat.pow 2 (n.log2 - 52)
  let quotient := n / unit
  let rest := n % unit
  if unit < 2 * rest || (2 * rest = unit && quotient % 2 = 1) then (quotient + 1) * unit
  else quotient * unit

/-- The least number that is rounded to an infinite double: the midpoint between the largest
finite double and the next power of two. -/
def infinite : Nat := Nat.pow 2 1024 - Nat.pow 2 970

/-- The exponent of the largest power of ten that is a finite double. -/
def largestPower : Int := 308

/-- Whether the magnitude of a number is infinite. -/
def isTooLarge (n : Number) : Bool :=
  let (leading, power) := n.scaled
  if leading = 0 || power < 0 then false
  else if largestPower < power then true
  else infinite ≤ nearestDouble leading * nearestDouble (Nat.pow 10 power.toNat)

/-- The natural number that a number is when it is written as one. -/
def natural? (n : Number) : Option Nat :=
  if n.negative || n.fraction.isSome || n.exponent.isSome then none else some (decimal n.whole)

/-- What does not fit is a part of the digits at their end. -/
theorem length_fill_le (n : Nat) (ds : List Char) : (fill n ds).2.length ≤ ds.length := by
  induction ds generalizing n with
  | nil => exact Nat.le_refl 0
  | cons d rest ih =>
    unfold fill
    split
    · exact Nat.le_succ_of_le (ih _)
    · exact Nat.le_refl _

/-- A number that fits into sixty-four bits still does with the digits that are taken. -/
theorem fill_lt {n : Nat} (h : n < UInt64.size) (ds : List Char) :
    (fill n ds).1 < UInt64.size := by
  induction ds generalizing n with
  | nil => exact h
  | cons d rest ih =>
    unfold fill
    split
    · exact ih ‹_›
    · exact h

end Number

end Safelist.Json
