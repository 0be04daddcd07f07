import Safelist.Proofs.Json.Grammar

/-!
# Layouts are texts

A value that is laid out on lines is one of the texts of that value.
-/

namespace Safelist.Json

open Text Lexical

/-- Text in quotes in a faithful style is a way of writing the text. -/
theorem quotes_of_faithful {style : Escape} (h : Quoted.Faithful style) (t : String) :
    Quotes t (style.quote t.toList) :=
  .intro (h.spelled t.toList) (h.not_isLowControl t.toList)

/-- Behind the first entry between brackets stand the others, each behind a comma. -/
theorem bracketed_cons (opening closing : Char) (level : Nat) (e : List Char)
    (es : List (List Char)) : bracketed opening closing level (e :: es) =
      opening :: (newline (level + 1) ++ (e ++ (commas (newline (level + 1)) es ++
        (newline level ++ [closing])))) := by
  have hlines : List.intercalate (',' :: newline (level + 1)) (e :: es) =
      e ++ commas (newline (level + 1)) es := by
    induction es generalizing e with
    | nil => simp [commas]
    | cons e' es ih => simp [List.intercalate_cons_cons, ih, commas]
  simp [bracketed, hlines]

/-- Entries on lines of their own between brackets are a list of these entries. -/
theorem listed_bracketed (opening closing : Char) (level : Nat) {ways : List (List Char → Prop)}
    {entries : List (List Char)} (h : List.Forall₂ (fun way cs => way cs) ways entries) :
    ∃ ds, bracketed opening closing level entries = opening :: ds ∧ Listed closing ways ds := by
  cases h with
  | nil => exact ⟨_, rfl, .none blank_nil⟩
  | cons he hmore =>
    exact ⟨_, bracketed_cons _ _ _ _ _, .some (blank_newline _) he
      (followed_commas (blank_newline _) (blank_newline _) hmore)⟩

/-- A key and a value as they are laid out. -/
def laidOut (e : String × List Char) : List Char :=
  Escape.json.quote e.1.toList ++ ':' :: ' ' :: e.2

theorem layoutItems_eq_map (level : Nat) (items : List Json) :
    layoutItems level items = items.map (layout level) := by
  induction items with
  | nil => rfl
  | cons item rest ih => rw [layoutItems, ih, List.map_cons]

theorem layoutMembers_eq_map (level : Nat) (members : List (String × Json)) :
    layoutMembers level members = members.map fun m => laidOut (m.1, layout level m.2) := by
  induction members with
  | nil => rfl
  | cons m rest ih =>
    rw [layoutMembers, ih, List.map_cons]
    rfl

theorem keyed_laidOut {key : String} {value : List Char → Prop} {cs : List Char} (h : value cs) :
    Keyed key value (laidOut (key, cs)) := by
  have hspace : Blank [' '] := List.forall_mem_singleton.mpr rfl
  exact .intro (quotes_of_faithful Quoted.faithful_json key) blank_nil hspace h

/-- A value at any level is a text of that value. -/
theorem isText_layout (level : Nat) (j : Json) : j.IsText (layout level j) := by
  induction j using inductionOn generalizing level with
  | number n => rfl
  | boolean b => rfl
  | text t => exact quotes_of_faithful Quoted.faithful_json t
  | list items ih =>
    refine listed_bracketed _ _ level ?_
    rw [itemTexts_eq_map, layoutItems_eq_map, List.forall₂_map_left_iff, List.forall₂_map_right_iff]
    exact List.forall₂_same.mpr fun item hitem => ih item hitem _
  | object members ih =>
    refine listed_bracketed _ _ level ?_
    rw [memberTexts_eq_map, layoutMembers_eq_map, List.forall₂_map_left_iff,
      List.forall₂_map_right_iff]
    exact List.forall₂_same.mpr fun m hm => keyed_laidOut (ih m hm _)

/-- What is written as a document is a text of the value. -/
theorem isText_write (j : Json) : j.IsText j.write.toList := by
  rw [write, String.toList_ofList]
  exact isText_layout 0 j

end Safelist.Json
