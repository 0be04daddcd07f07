import Mathlib.Data.List.Forall2
import Safelist.Json.Layout
import Safelist.Json.Scan
import Safelist.Proofs.Lexical.Numeral
import Safelist.Proofs.Lexical.Quotation

/-!
# The texts of a value

A value has many texts: white space may stand between lexemes, and the characters of
a text between quotes may be spelled in several ways. A natural number has one text
only, and an object its members in order.
-/

namespace Safelist.Json

open Text Lexical

/-- White space, or nothing. -/
def Blank (ws : List Char) : Prop := ∀ c ∈ ws, Scan.isSpace c = true

theorem blank_nil : Blank [] := nofun

theorem blank_newline (level : Nat) : Blank (newline level) := by
  intro c h
  rcases List.mem_cons.mp h with rfl | h
  · decide
  · rw [(List.mem_replicate.mp h).2]
    decide

/-- The ways of writing a text between double quotes: every spelling of a string in which no
control character stands for itself. -/
inductive Quotes (t : String) : List Char → Prop
  /-- The text is spelled between two quotes. -/
  | intro {body : List Char} (h : Quoted.Spelled body t.toList)
      (hlow : ∀ c ∈ body, Escape.isLowControl c = false) : Quotes t ('"' :: (body ++ ['"']))

theorem Quotes.exists_eq_cons {t : String} {cs : List Char} (h : Quotes t cs) :
    ∃ rest, cs = '"' :: rest := by
  cases h with
  | intro => exact ⟨_, rfl⟩

/-- What may stand behind an entry: the other entries, each in one of its ways behind a comma, and
the closing bracket, with white space before each of these and before each entry. -/
inductive Followed (closing : Char) : List (List Char → Prop) → List Char → Prop
  /-- No entry is left. -/
  | close {ws : List Char} (hws : Blank ws) : Followed closing [] (ws ++ [closing])
  /-- The next entry stands behind a comma. -/
  | comma {entry : List Char → Prop} {entries : List (List Char → Prop)} {ws ws' cs ds : List Char}
      (hws : Blank ws) (hws' : Blank ws') (h : entry cs) (hmore : Followed closing entries ds) :
      Followed closing (entry :: entries) (ws ++ ',' :: (ws' ++ (cs ++ ds)))

/-- What may stand behind an opening bracket. -/
inductive Listed (closing : Char) : List (List Char → Prop) → List Char → Prop
  /-- There are no entries. -/
  | none {ws : List Char} (hws : Blank ws) : Listed closing [] (ws ++ [closing])
  /-- The first entry is followed by the others. -/
  | some {entry : List Char → Prop} {entries : List (List Char → Prop)} {ws cs ds : List Char}
      (hws : Blank ws) (h : entry cs) (hmore : Followed closing entries ds) :
      Listed closing (entry :: entries) (ws ++ (cs ++ ds))

/-- The ways of writing a key and a value that has certain ways of its own. -/
inductive Keyed (key : String) (value : List Char → Prop) : List Char → Prop
  /-- A colon stands between the key and the value. -/
  | intro {ks ws ws' vs : List Char} (hkey : Quotes key ks) (hws : Blank ws) (hws' : Blank ws')
      (h : value vs) : Keyed key value (ks ++ (ws ++ ':' :: (ws' ++ vs)))

/-- Entries that each stand behind a comma and the same white space. -/
def commas (ws : List Char) (entries : List (List Char)) : List Char :=
  entries.flatMap fun e => ',' :: (ws ++ e)

/-- Entries behind commas follow another one, up to a closing bracket. -/
theorem followed_commas {closing : Char} {ws ws' : List Char} {ways : List (List Char → Prop)}
    {entries : List (List Char)} (hws : Blank ws) (hws' : Blank ws')
    (h : List.Forall₂ (fun way cs => way cs) ways entries) :
    Followed closing ways (commas ws entries ++ (ws' ++ [closing])) := by
  induction h with
  | nil => exact .close hws'
  | cons he _ ih =>
    have hmore := Followed.comma blank_nil hws he ih
    simpa [commas] using hmore

mutual

/-- Whether some characters are a text of a value, without white space around it. -/
def IsText : Json → List Char → Prop
  | .number n, cs => cs = Nat.toDigits 10 n
  | .boolean b, cs => cs = (if b then "true" else "false").toList
  | .text t, cs => Quotes t cs
  | .list items, cs => ∃ ds, cs = '[' :: ds ∧ Listed ']' (itemTexts items) ds
  | .object members, cs => ∃ ds, cs = '\x7b' :: ds ∧ Listed '\x7d' (memberTexts members) ds

/-- The texts of each item. -/
def itemTexts : List Json → List (List Char → Prop)
  | [] => []
  | item :: rest => item.IsText :: itemTexts rest

/-- The texts of each member. -/
def memberTexts : List (String × Json) → List (List Char → Prop)
  | [] => []
  | (key, value) :: rest => Keyed key value.IsText :: memberTexts rest

end

theorem itemTexts_eq_map (items : List Json) : itemTexts items = items.map IsText := by
  induction items with
  | nil => rfl
  | cons item rest ih => rw [itemTexts, ih, List.map_cons]

theorem memberTexts_eq_map (members : List (String × Json)) :
    memberTexts members = members.map fun m => Keyed m.1 m.2.IsText := by
  induction members with
  | nil => rfl
  | cons m rest ih => rw [memberTexts, ih, List.map_cons]

/-- What holds of a value when it holds of its items and members holds of every value. -/
@[elab_as_elim]
theorem inductionOn {P : Json → Prop} (j : Json) (number : ∀ n, P (.number n))
    (boolean : ∀ b, P (.boolean b)) (text : ∀ t, P (.text t))
    (list : ∀ items, (∀ item ∈ items, P item) → P (.list items))
    (object : ∀ members, (∀ m ∈ members, P m.2) → P (.object members)) : P j :=
  @Json.rec P (fun items => ∀ item ∈ items, P item) (fun members => ∀ m ∈ members, P m.2)
    (fun m => P m.2) number boolean text list object nofun
    (fun _ _ h hs => List.forall_mem_cons.mpr ⟨h, hs⟩) nofun
    (fun _ _ h hs => List.forall_mem_cons.mpr ⟨h, hs⟩) (fun _ _ h => h) j

section Beginnings

/-- The kinds of values. -/
inductive Kind where
  /-- A natural number. -/
  | number
  /-- A truth value. -/
  | boolean
  /-- A text. -/
  | text
  /-- A list. -/
  | list
  /-- An object. -/
  | object
deriving DecidableEq

/-- The kind of a value. -/
def kind : Json → Kind
  | .number _ => .number
  | .boolean _ => .boolean
  | .text _ => .text
  | .list _ => .list
  | .object _ => .object

/-- The kind of the values whose texts begin with a character. -/
def kindAt (c : Char) : Option Kind :=
  if c = '"' then some .text
  else if c = '[' then some .list
  else if c = '\x7b' then some .object
  else if c = 't' || c = 'f' then some .boolean
  else if c.isDigit then some .number
  else none

theorem exists_toDigits_eq_cons (n : Nat) :
    ∃ c cs, Nat.toDigits 10 n = c :: cs ∧ c.isDigit = true := by
  obtain ⟨c, cs, hcs⟩ := List.exists_cons_of_ne_nil (Nat.toDigits_ne_nil (n := n) (b := 10))
  have hmem : c ∈ Nat.toDigits 10 n := hcs ▸ List.mem_cons_self
  exact ⟨c, cs, hcs, Nat.isDigit_of_mem_toDigits (by decide) (by decide) hmem⟩

theorem kindAt_of_isDigit {c : Char} (h : c.isDigit = true) : kindAt c = some .number := by
  have hother : ∀ d : Char, d.isDigit = false → c ≠ d := by
    rintro d hd rfl
    rw [h] at hd
    cases hd
  simp [kindAt, h, hother '"' rfl, hother '[' rfl, hother '\x7b' rfl, hother 't' rfl,
    hother 'f' rfl]

/-- The first character of a text tells the kind of its value. -/
theorem IsText.kindAt {j : Json} {cs : List Char} (h : j.IsText cs) :
    ∃ c rest, cs = c :: rest ∧ Json.kindAt c = some j.kind := by
  cases j with
  | number n =>
    obtain ⟨c, rest, hcs, hc⟩ := exists_toDigits_eq_cons n
    exact ⟨c, rest, h.trans hcs, kindAt_of_isDigit hc⟩
  | boolean b =>
    cases b with
    | false => exact ⟨'f', _, h, rfl⟩
    | true => exact ⟨'t', _, h, rfl⟩
  | text t =>
    obtain ⟨rest, rfl⟩ := Quotes.exists_eq_cons h
    exact ⟨_, _, rfl, rfl⟩
  | list items =>
    obtain ⟨ds, rfl, -⟩ := h
    exact ⟨_, _, rfl, rfl⟩
  | object members =>
    obtain ⟨ds, rfl, -⟩ := h
    exact ⟨_, _, rfl, rfl⟩

/-- Some characters begin neither with white space nor with a closing bracket. -/
def Begins (closing : Char) (cs : List Char) : Prop :=
  ∃ c rest, cs = c :: rest ∧ Scan.isSpace c = false ∧ c ≠ closing

theorem IsText.begins {j : Json} {cs : List Char} (h : j.IsText cs) : Begins ']' cs := by
  obtain ⟨c, rest, hcs, hc⟩ := h.kindAt
  refine ⟨c, rest, hcs, ?_, ?_⟩
  · rw [Bool.eq_false_iff]
    intro hspace
    simp only [Scan.isSpace, Bool.or_eq_true, decide_eq_true_eq, or_assoc] at hspace
    rcases hspace with rfl | rfl | rfl | rfl <;> cases hc
  · rintro rfl
    cases hc

theorem Keyed.begins {key : String} {value : List Char → Prop} {cs : List Char}
    (h : Keyed key value cs) : Begins '\x7d' cs := by
  cases h with
  | intro hkey =>
    obtain ⟨rest, rfl⟩ := hkey.exists_eq_cons
    exact ⟨_, _, rfl, by decide, by decide⟩

end Beginnings

section Endings

variable {ws rest : List Char}

/-- A number ends here: what follows does not go on with it. -/
def EndsNumber (rest : List Char) : Prop :=
  ∀ c, rest.head? = some c → c.isDigit = false ∧ c ≠ '.' ∧ c ≠ 'e' ∧ c ≠ 'E'

theorem endsNumber_nil : EndsNumber [] := nofun

theorem endsNumber_cons {c : Char} (h : c.isDigit = false ∧ c ≠ '.' ∧ c ≠ 'e' ∧ c ≠ 'E')
    (rest : List Char) : EndsNumber (c :: rest) := by
  rintro _ ⟨⟩
  exact h

/-- No number goes on behind white space. -/
theorem EndsNumber.blank (hws : Blank ws) (h : EndsNumber rest) : EndsNumber (ws ++ rest) := by
  cases ws with
  | nil => exact h
  | cons c ws =>
    refine endsNumber_cons ?_ _
    have hc := hws c List.mem_cons_self
    simp only [Scan.isSpace, Bool.or_eq_true, decide_eq_true_eq, or_assoc] at hc
    rcases hc with rfl | rfl | rfl | rfl <;> decide

/-- The digits of a number go as far as the number does. -/
theorem takeWhile_isDigit_toDigits (h : EndsNumber rest) (n : Nat) :
    (Nat.toDigits 10 n ++ rest).takeWhile Char.isDigit = Nat.toDigits 10 n := by
  have hdigits : ∀ c ∈ Nat.toDigits 10 n, c.isDigit = true :=
    fun c hc => Nat.isDigit_of_mem_toDigits (by decide) (by decide) hc
  exact takeWhile_append_eq hdigits ((Option.any_eq_false _ _).mpr fun c hc => (h c hc).1)

/-- No number goes on behind an entry. -/
theorem Followed.endsNumber {closing : Char} {entries : List (List Char → Prop)} {cs : List Char}
    (h : Followed closing entries cs) (hclosing : closing = ']' ∨ closing = '\x7d')
    (rest : List Char) : EndsNumber (cs ++ rest) := by
  cases h with
  | close hws =>
    rw [List.append_assoc]
    refine .blank hws (endsNumber_cons ?_ _)
    rcases hclosing with rfl | rfl <;> decide
  | comma hws =>
    rw [List.append_assoc]
    exact .blank hws (endsNumber_cons (by decide) _)

end Endings

end Safelist.Json
