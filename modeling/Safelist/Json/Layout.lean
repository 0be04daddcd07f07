import Safelist.Text.Escape

/-!
# JSON documents in layout

Documents are written with one member or item on a line, two spaces for each
level, and nothing between the brackets of an empty list or object.
-/

namespace Safelist

/-- The values that are written as JSON. -/
inductive Json where
  /-- A natural number. -/
  | number (n : Nat)
  /-- A truth value. -/
  | boolean (b : Bool)
  /-- A text. -/
  | text (t : String)
  /-- A list. -/
  | list (items : List Json)
  /-- An object with its members in order. -/
  | object (members : List (String × Json))

namespace Json

/-- A line feed and the spaces of a level. -/
def newline (level : Nat) : List Char := '\n' :: List.replicate (2 * level) ' '

/-- Entries on lines of their own, one level further in, between two brackets. -/
def bracketed (opening closing : Char) (level : Nat) (entries : List (List Char)) : List Char :=
  if entries.isEmpty then [opening, closing]
  else
    opening :: (newline (level + 1) ++
      List.intercalate (',' :: newline (level + 1)) entries ++ newline level ++ [closing])

mutual

/-- A value at a level. -/
def layout (level : Nat) : Json → List Char
  | .number n => Nat.toDigits 10 n
  | .boolean b => (if b then "true" else "false").toList
  | .text t => Text.Escape.json.quote t.toList
  | .list items => bracketed '[' ']' level (layoutItems (level + 1) items)
  | .object members => bracketed '\x7b' '\x7d' level (layoutMembers (level + 1) members)

/-- Each item of a list. -/
def layoutItems (level : Nat) : List Json → List (List Char)
  | [] => []
  | item :: rest => layout level item :: layoutItems level rest

/-- Each member of an object. -/
def layoutMembers (level : Nat) : List (String × Json) → List (List Char)
  | [] => []
  | (key, value) :: rest =>
    (Text.Escape.json.quote key.toList ++ ':' :: ' ' :: layout level value) ::
      layoutMembers level rest

end

/-- A value as a document. -/
def write (j : Json) : String := String.ofList (layout 0 j)

end Json

end Safelist
