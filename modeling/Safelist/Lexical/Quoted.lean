import Safelist.Text.BlockString
import Safelist.Lexical.Problem

/-!
# Strings

A plain string stands between double quotes on one line, with escapes after
backslashes; code escapes outside the first plane come as surrogate pairs. A
block string stands between triple quotes and knows one escape, that of the
triple quote.
-/

namespace Safelist.Lexical.Quoted

/-- Codes of the first halves of surrogate pairs. -/
def isLeading (code : Nat) : Bool := 0xd800 ≤ code && code < 0xdc00

/-- Codes of the second halves of surrogate pairs. -/
def isTrailing (code : Nat) : Bool := 0xdc00 ≤ code && code < 0xe000

/-- The character that a surrogate pair denotes. -/
def joinSurrogates (leading trailing : Nat) : Char :=
  Char.ofNat (0x10000 + (leading - 0xd800) * 0x400 + (trailing - 0xdc00))

/-- The character of a code escape, read after its letter, and the number of
characters it takes there. -/
def codeEscape (cs : List Char) : Except Problem (Char × Nat) :=
  match Text.Hex.four? cs with
  | none => .error .badCodeEscape
  | some (code, rest) =>
    if isLeading code then
      match rest with
      | '\\' :: 'u' :: rest =>
        match Text.Hex.four? rest with
        | none => .error .badCodeEscape
        | some (low, _) =>
          if isTrailing low then .ok (joinSurrogates code low, 10) else .error .unpairedSurrogate
      | _ => .error .unpairedSurrogate
    else if isTrailing code then .error .badCodeEscape
    else .ok (Char.ofNat code, 4)

/-- The character of an escape, read after its backslash, and the number of
characters it takes there. -/
def escape : List Char → Except Problem (Char × Nat)
  | '"' :: _ => .ok ('"', 1)
  | '\\' :: _ => .ok ('\\', 1)
  | '/' :: _ => .ok ('/', 1)
  | 'b' :: _ => .ok ('\x08', 1)
  | 'f' :: _ => .ok ('\x0c', 1)
  | 'n' :: _ => .ok ('\n', 1)
  | 'r' :: _ => .ok ('\r', 1)
  | 't' :: _ => .ok ('\t', 1)
  | 'u' :: rest => (codeEscape rest).map fun (c, n) => (c, n + 1)
  | cs => .error (.unknownEscape cs.head?)

/-- The value of a plain string, read after its opening quote, and the number of
characters up to its closing quote, that quote included. -/
def body (cs : List Char) : Except Problem (List Char × Nat) :=
  match cs with
  | [] => .error .unterminatedString
  | c :: rest =>
    if c = '"' then .ok ([], 1)
    else if c = '\n' || c = '\r' then .error .unterminatedString
    else if c = '\\' then
      match escape rest with
      | .error problem => .error problem
      | .ok (decoded, n) =>
        (body (rest.drop n)).map fun (text, m) => (decoded :: text, n + m + 1)
    else (body rest).map fun (text, m) => (c :: text, m + 1)
termination_by cs.length
decreasing_by all_goals simp only [List.length_cons, List.length_drop]; omega

/-- The raw text of a block string, read after its opening quotes, and the number of
characters up to its closing quotes, those included. -/
def blockBody : List Char → Except Problem (List Char × Nat)
  | [] => .error .unterminatedString
  | '"' :: '"' :: '"' :: _ => .ok ([], 3)
  | '\\' :: '"' :: '"' :: '"' :: rest =>
    (blockBody rest).map fun (raw, n) => ('"' :: '"' :: '"' :: raw, n + 4)
  | c :: rest => (blockBody rest).map fun (raw, n) => (c :: raw, n + 1)

/-- The string at the beginning of a text, read after one double quote, and the
number of characters it takes there. -/
def scan : List Char → Except Problem (Lexeme × Nat)
  | '"' :: '"' :: rest =>
    (blockBody rest).map fun (raw, n) =>
      (.block (String.ofList (Text.BlockString.value raw)), n + 2)
  | cs => (body cs).map fun (text, n) => (.string (String.ofList text), n)

end Safelist.Lexical.Quoted
