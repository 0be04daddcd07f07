import Safelist.Json.Scan

/-!
# JSON of a known shape

Texts, truth values, numbers, lists and records are read straight from the
characters. A record may be written as an object or as a list of its fields in
order. Keys that are not known are passed over with their values; a key that
comes a second time is a fault of shape at that key.
-/

namespace Safelist.Json.Scan

/-- A text. -/
def string : Scan String := do
  spaces
  if (← peek) = some '"' then
    step
    text
  else mismatch

/-- A truth value. -/
def bool : Scan Bool := do
  spaces
  match ← peek with
  | some 't' => letters "true".toList; pure true
  | some 'f' => letters "false".toList; pure false
  | _ => mismatch

/-- A natural number of thirty-two bits. -/
def word : Scan UInt32 := do
  spaces
  let isNumber := match ← peek with
    | some c => beginsNumber c
    | none => false
  if isNumber then
    match (← number).natural? with
    | some n => if n < UInt32.size then pure (UInt32.ofNat n) else fail .shape
    | none => fail .shape
  else mismatch

/-- Where a reader stands between the brackets of a list or an object. -/
inductive Place where
  /-- Directly after the opening bracket. -/
  | first
  /-- After an entry. -/
  | after
  /-- After a comma. -/
  | comma
deriving DecidableEq

/-- The items of a list after its opening bracket, and the closing bracket. An item takes
at least one character. -/
def items {α : Type} (item : Scan α) (place : Place) (cs : List Char) :
    Except Fault (List α × Nat) :=
  match cs with
  | [] => .error .early
  | c :: rest =>
    if isSpace c then (items item place rest).map fun (as, n) => (as, n + 1)
    else if c = ']' then if place = .comma then .error .malformed else .ok ([], 1)
    else if place = .after then
      if c = ',' then (items item .comma rest).map fun (as, n) => (as, n + 1)
      else .error .malformed
    else
      match item (c :: rest) with
      | .error fault => .error fault
      | .ok (a, n) =>
        (items item .after (rest.drop (n - 1))).map fun (as, m) => (a :: as, n - 1 + m + 1)
termination_by cs.length
decreasing_by all_goals simp only [List.length_cons, List.length_drop]; omega

/-- A list. -/
def list {α : Type} (item : Scan α) : Scan (List α) := do
  spaces
  if (← peek) = some '[' then
    step
    items item .first
  else mismatch

/-- A field of a record that is being read into a draft. -/
structure Member (σ : Type) where
  /-- The field's key. -/
  key : String
  /-- Whether a draft has the field already. -/
  isSet : σ → Bool
  /-- Read the field's value into a draft. -/
  read : σ → Scan σ

/-- A field that a draft holds as an option. -/
def Member.of {σ α : Type} (key : String) (get : σ → Option α) (set : σ → α → σ)
    (value : Scan α) : Member σ where
  key := key
  isSet draft := (get draft).isSome
  read draft := set draft <$> value

/-- The colon between a key and its value. -/
def colon : Scan Unit := do
  spaces
  match ← peek with
  | none => fail .early
  | some c => if c = ':' then step else fail .malformed

/-- A key after its opening quote, and its value. -/
def entry {σ : Type} (members : List (Member σ)) (draft : σ) : Scan σ := do
  let key ← text
  match members.find? (·.key == key) with
  | none =>
    colon
    skip
    pure draft
  | some member =>
    if member.isSet draft then fail .shape
    else
      colon
      member.read draft

/-- The entries of an object after its opening bracket, and the closing bracket. -/
def entries {σ : Type} (members : List (Member σ)) (place : Place) (draft : σ)
    (cs : List Char) : Except Fault (σ × Nat) :=
  match cs with
  | [] => .error .early
  | c :: rest =>
    if isSpace c then (entries members place draft rest).map fun (s, n) => (s, n + 1)
    else if c = '\x7d' then if place = .comma then .error .malformed else .ok (draft, 1)
    else if place = .after then
      if c = ',' then (entries members .comma draft rest).map fun (s, n) => (s, n + 1)
      else .error .malformed
    else if c = '"' then
      match entry members draft rest with
      | .error fault => .error fault
      | .ok (draft, n) =>
        (entries members .after draft (rest.drop n)).map fun (s, m) => (s, n + m + 1)
    else .error .malformed
termination_by cs.length
decreasing_by all_goals simp only [List.length_cons, List.length_drop]; omega

/-- The fields of a record that is written as a list, after its opening bracket, and the
closing bracket. The list may end before all fields are there. -/
def inOrder {σ : Type} (isFirst : Bool) (draft : σ) : List (Member σ) → Scan σ
  | [] => do
    spaces
    match ← peek with
    | none => fail .early
    | some c =>
      if c = ']' then
        step
        pure draft
      else fail .malformed
  | member :: rest => do
    spaces
    match ← peek with
    | none => fail .early
    | some c =>
      if c = ']' then
        step
        pure draft
      else if isFirst then inOrder false (← member.read draft) rest
      else if c = ',' then
        step
        spaces
        match ← peek with
        | none => fail .early
        | some c =>
          if c = ']' then fail .malformed else inOrder false (← member.read draft) rest
      else fail .malformed

/-- A record, read into an empty draft. -/
def record {σ : Type} (members : List (Member σ)) (draft : σ) : Scan σ := do
  spaces
  match ← peek with
  | some '\x7b' =>
    step
    entries members .first draft
  | some '[' =>
    step
    inOrder true draft members
  | _ => mismatch

/-- A field that must be there. -/
def required {α : Type} : Option α → Scan α
  | some a => pure a
  | none => fail .shape

/-- Read a whole text; after the value there may be white space only. -/
def whole {α : Type} (value : Scan α) (text : String) : Except Fault α :=
  match value text.toList with
  | .error fault => .error fault
  | .ok (a, n) => if (text.toList.drop n).all isSpace then .ok a else .error .malformed

end Safelist.Json.Scan
