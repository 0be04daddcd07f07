/-!
# Hexadecimal digits

Reading and writing of base-sixteen digits. Written digits are lowercase;
digits of either case are read.
-/

namespace Safelist.Text.Hex

/-- The lowercase digit of the last four bits of a number. -/
def digit (n : Nat) : Char := Nat.digitChar (n % 16)

/-- The value of a digit of either case. -/
def value? (c : Char) : Option Nat :=
  if '0' ≤ c ∧ c ≤ '9' then some (c.toNat - '0'.toNat)
  else if 'a' ≤ c ∧ c ≤ 'f' then some (c.toNat - 'a'.toNat + 10)
  else if 'A' ≤ c ∧ c ≤ 'F' then some (c.toNat - 'A'.toNat + 10)
  else none

/-- The digits of a number without leading zeros. -/
def digits (n : Nat) : List Char := Nat.toDigits 16 n

/-- The last sixteen bits of a number in exactly four digits. -/
def four (n : Nat) : List Char :=
  [digit (n / 4096), digit (n / 256), digit (n / 16), digit n]

/-- The number that four digits denote, if all four are digits. -/
def four? : List Char → Option (Nat × List Char)
  | a :: b :: c :: d :: rest => do
    let a ← value? a
    let b ← value? b
    let c ← value? c
    let d ← value? d
    pure (((a * 16 + b) * 16 + c) * 16 + d, rest)
  | _ => none

/-- A byte in exactly two digits. -/
def byte (b : UInt8) : List Char := [digit (b.toNat / 16), digit b.toNat]

/-- The last thirty-two bits of a number in exactly eight digits. -/
def word (w : UInt32) : List Char :=
  four (w.toNat / 65536) ++ four w.toNat

/-- Four digits are always written. -/
theorem length_four (n : Nat) : (four n).length = 4 := rfl

/-- Eight digits are always written for a word. -/
theorem length_word (w : UInt32) : (word w).length = 8 := rfl

/-- Every written digit is read back. -/
theorem value?_digit (n : Nat) : value? (digit n) = some (n % 16) := by
  have h : n % 16 < 16 := Nat.mod_lt _ (by decide)
  unfold digit
  generalize n % 16 = m at h
  have : ∀ k : Fin 16, value? (Nat.digitChar k.val) = some k.val := by decide
  exact this ⟨m, h⟩

/-- Four written digits are read back, whatever follows. -/
theorem four?_four (n : Nat) (h : n < 65536) (rest : List Char) :
    four? (four n ++ rest) = some (n, rest) := by
  simp only [four, four?, List.cons_append, List.nil_append, value?_digit, Option.bind_eq_bind,
    Option.bind_some, Option.pure_def, Option.some.injEq, Prod.mk.injEq, and_true]
  omega

end Safelist.Text.Hex
