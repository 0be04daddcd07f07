import Safelist.Text.Hex

/-!
# SHA-256 digests

The digest of a text is taken over its UTF-8 bytes: padding to whole blocks of
sixty-four bytes, one compression for each block, and the eight words of the
final state in lowercase hexadecimal digits.
-/

namespace Safelist.Signature.Digest

/-- Eight words, between two blocks or inside one. -/
structure Words where
  /-- First word. -/
  a : UInt32
  /-- Second word. -/
  b : UInt32
  /-- Third word. -/
  c : UInt32
  /-- Fourth word. -/
  d : UInt32
  /-- Fifth word. -/
  e : UInt32
  /-- Sixth word. -/
  f : UInt32
  /-- Seventh word. -/
  g : UInt32
  /-- Eighth word. -/
  h : UInt32
deriving DecidableEq

/-- The state before the first block: fractional parts of the square roots of the
first eight primes. -/
def initial : Words :=
  ⟨0x6a09e667, 0xbb67ae85, 0x3c6ef372, 0xa54ff53a,
    0x510e527f, 0x9b05688c, 0x1f83d9ab, 0x5be0cd19⟩

/-- The constants of the sixty-four rounds: fractional parts of the cube roots of the
first sixty-four primes. -/
def roundConstants : List UInt32 :=
  [0x428a2f98, 0x71374491, 0xb5c0fbcf, 0xe9b5dba5, 0x3956c25b, 0x59f111f1,
   0x923f82a4, 0xab1c5ed5, 0xd807aa98, 0x12835b01, 0x243185be, 0x550c7dc3,
   0x72be5d74, 0x80deb1fe, 0x9bdc06a7, 0xc19bf174, 0xe49b69c1, 0xefbe4786,
   0x0fc19dc6, 0x240ca1cc, 0x2de92c6f, 0x4a7484aa, 0x5cb0a9dc, 0x76f988da,
   0x983e5152, 0xa831c66d, 0xb00327c8, 0xbf597fc7, 0xc6e00bf3, 0xd5a79147,
   0x06ca6351, 0x14292967, 0x27b70a85, 0x2e1b2138, 0x4d2c6dfc, 0x53380d13,
   0x650a7354, 0x766a0abb, 0x81c2c92e, 0x92722c85, 0xa2bfe8a1, 0xa81a664b,
   0xc24b8b70, 0xc76c51a3, 0xd192e819, 0xd6990624, 0xf40e3585, 0x106aa070,
   0x19a4c116, 0x1e376c08, 0x2748774c, 0x34b0bcb5, 0x391c0cb3, 0x4ed8aa4a,
   0x5b9cca4f, 0x682e6ff3, 0x748f82ee, 0x78a5636f, 0x84c87814, 0x8cc70208,
   0x90befffa, 0xa4506ceb, 0xbef9a3f7, 0xc67178f2]

/-- Rotation of a word to the right. -/
def rotate (w : UInt32) (n : UInt32) : UInt32 := (w >>> n) ||| (w <<< (32 - n))

/-- The word that four bytes denote, the first byte being the highest. -/
def word (a b c d : UInt8) : UInt32 :=
  (a.toUInt32 <<< 24) ||| (b.toUInt32 <<< 16) ||| (c.toUInt32 <<< 8) ||| d.toUInt32

/-- The words of a block of bytes. -/
def words : List UInt8 → List UInt32
  | a :: b :: c :: d :: rest => word a b c d :: words rest
  | _ => []

/-- The word of the message schedule that follows the words so far. -/
def scheduled (sofar : Array UInt32) : UInt32 :=
  let back (n : Nat) : UInt32 := sofar.getD (sofar.size - n) 0
  let low := rotate (back 15) 7 ^^^ rotate (back 15) 18 ^^^ (back 15 >>> 3)
  let high := rotate (back 2) 17 ^^^ rotate (back 2) 19 ^^^ (back 2 >>> 10)
  back 16 + low + back 7 + high

/-- The message schedule: the sixteen words of a block and forty-eight more. -/
def schedule (block : List UInt8) : Array UInt32 :=
  (List.range 48).foldl (fun sofar _ => sofar.push (scheduled sofar)) (words block).toArray

/-- One round, with its constant and its word of the schedule. -/
def round (s : Words) (constant scheduled : UInt32) : Words :=
  let high := rotate s.e 6 ^^^ rotate s.e 11 ^^^ rotate s.e 25
  let choice := (s.e &&& s.f) ^^^ ((~~~ s.e) &&& s.g)
  let first := s.h + high + choice + constant + scheduled
  let low := rotate s.a 2 ^^^ rotate s.a 13 ^^^ rotate s.a 22
  let majority := (s.a &&& s.b) ^^^ (s.a &&& s.c) ^^^ (s.b &&& s.c)
  ⟨first + (low + majority), s.a, s.b, s.c, s.d + first, s.e, s.f, s.g⟩

/-- The sum of two states, word by word. -/
def Words.add (s t : Words) : Words :=
  ⟨s.a + t.a, s.b + t.b, s.c + t.c, s.d + t.d, s.e + t.e, s.f + t.f, s.g + t.g, s.h + t.h⟩

/-- The state after a block. -/
def compress (s : Words) (block : List UInt8) : Words :=
  let rounds := roundConstants.zip (schedule block).toList
  s.add (rounds.foldl (fun t pair => round t pair.1 pair.2) s)

/-- The eight bytes of a bit count, the highest first. -/
def countBytes (bits : Nat) : List UInt8 :=
  [56, 48, 40, 32, 24, 16, 8, 0].map fun shift => UInt8.ofNat (bits >>> shift)

/-- Bytes made up to whole blocks: a one bit, zeros, and the count of bits. -/
def pad (bytes : List UInt8) : List UInt8 :=
  bytes ++ 0x80 :: (List.replicate ((119 - bytes.length % 64) % 64) 0 ++
    countBytes (bytes.length * 8))

/-- The state after all whole blocks of some bytes. -/
def absorb (s : Words) (bytes : List UInt8) : Words :=
  if 64 ≤ bytes.length then absorb (compress s (bytes.take 64)) (bytes.drop 64) else s
termination_by bytes.length
decreasing_by simp_wf; omega

/-- A state in hexadecimal digits. -/
def Words.hex (s : Words) : List Char :=
  [s.a, s.b, s.c, s.d, s.e, s.f, s.g, s.h].flatMap Text.Hex.word

/-- The digest of some bytes in hexadecimal digits. -/
def ofBytes (bytes : List UInt8) : List Char := (absorb initial (pad bytes)).hex

/-- The digest of a text, taken over its UTF-8 bytes. -/
def ofText (text : String) : String := String.ofList (ofBytes text.toUTF8.data.toList)

/-- The number of characters of a digest. -/
def length : Nat := 64

/-- Whether a text has the form of a digest: sixty-four lowercase hexadecimal digits. -/
def isDigest (text : String) : Bool :=
  text.utf8ByteSize = length &&
    text.toList.all fun c => c.isDigit || ('a' ≤ c && c ≤ 'f')

/-- A state is written in sixty-four characters. -/
theorem length_hex (s : Words) : s.hex.length = length := rfl

end Safelist.Signature.Digest
