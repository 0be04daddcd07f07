import Safelist.Proofs.Json.Taking

/-!
# Every text of a value is read

Where the items of a list or the fields of a record are read from each of their
texts, the list or the record is read from each of its own, whatever white space
stands between the lexemes and however texts are spelled.
-/

namespace Safelist.Json

namespace Scan

variable {α β σ : Type} {a : α} {cs ds ws rest : List Char}

/-- A scan reads a value from whatever is written in a certain way, white space before it passed
over, unless a number at its end goes on. -/
def Reads (scan : Scan α) (way : List Char → Prop) (a : α) : Prop :=
  ∀ ⦃ws cs rest : List Char⦄, Blank ws → way cs → EndsNumber rest → Takes scan (ws ++ cs) rest a

variable {way : List Char → Prop}

theorem Reads.map {scan : Scan α} (f : α → β) (h : Reads scan way a) :
    Reads (f <$> scan) way (f a) :=
  fun _ _ _ hws hcs hrest => (h hws hcs hrest).map f

/-- What takes nothing may come behind a scan. -/
theorem Reads.finish {b : β} {scan : Scan α} {next : α → Scan β} (h : Reads scan way a)
    (h' : ∀ rest, Takes (next a) [] rest b) : Reads (scan >>= next) way b :=
  fun _ _ rest hws hcs hrest => (h hws hcs hrest).finish (h' rest)

/-- What is read from a whole text. -/
theorem Reads.whole {scan : Scan α} (h : Reads scan way a) (hws : Blank ws) (hcs : way cs)
    (hrest : Blank rest) : whole scan (String.ofList (ws ++ (cs ++ rest))) = .ok a := by
  have hends : EndsNumber rest := by
    have hblank := EndsNumber.blank hrest endsNumber_nil
    rwa [List.append_nil] at hblank
  have htakes := h hws hcs hends
  rw [Takes, List.append_assoc] at htakes
  have hall : rest.all isSpace = true := List.all_eq_true.mpr hrest
  rw [Scan.whole, String.toList_ofList, htakes]
  simp [← List.append_assoc, hall]

section Items

variable {item : Scan α} {place : Place} {as : List α}

/-- White space between items is passed over. -/
theorem Takes.spaced_items (hws : Blank ws)
    (h : Takes (items item place) cs rest as) : Takes (items item place) (ws ++ cs) rest as := by
  induction ws with
  | nil => exact h
  | cons c ws ih =>
    have htail := ih fun c hc => hws c (List.mem_cons_of_mem _ hc)
    unfold Takes at htail ⊢
    rw [List.cons_append, List.cons_append, items, if_pos (hws c List.mem_cons_self), htail]
    rfl

theorem takes_items_close (hplace : place ≠ .comma) (rest : List Char) :
    Takes (items item place) [']'] rest [] := by
  unfold Takes
  rw [List.singleton_append, items]
  simp [isSpace, hplace]

theorem Takes.comma_items (h : Takes (items item .comma) cs rest as) :
    Takes (items item .after) (',' :: cs) rest as := by
  unfold Takes at h ⊢
  rw [List.cons_append, items, h]
  simp [isSpace, Except.map]

/-- An item that does not begin like white space or an end is read. -/
theorem Takes.item_items (hplace : place ≠ .after) (hbegin : Begins ']' ds)
    (ha : Takes item ds (cs ++ rest) a) (h : Takes (items item .after) cs rest as) :
    Takes (items item place) (ds ++ cs) rest (a :: as) := by
  obtain ⟨c, more, rfl, hspace, hc⟩ := hbegin
  unfold Takes at ha h ⊢
  rw [List.append_assoc, List.cons_append, items]
  simp only [List.cons_append] at ha
  simp [hspace, hc, hplace, ha, h, Except.map]

end Items

section Lists

variable {item : Scan α} {place : Place} {as : List α} {f : β → Json} {g : β → α}

/-- An item and what follows it are read up to the end of the list. -/
theorem Reads.items_cons {j : Json} (h : Reads item j.IsText a) (hplace : place ≠ .after)
    (hws : Blank ws) (hcs : j.IsText cs) {ways : List (List Char → Prop)}
    (hmore : Followed ']' ways ds) (hds : Takes (items item .after) ds rest as) :
    Takes (items item place) (ws ++ (cs ++ ds)) rest (a :: as) :=
  .spaced_items hws <| .item_items hplace hcs.begins
    (h blank_nil hcs (hmore.endsNumber (.inl rfl) rest)) hds

/-- The items behind an item are read up to the end of the list. -/
theorem takes_items_after (xs : List β) (hitem : ∀ x ∈ xs, Reads item (f x).IsText (g x))
    (h : Followed ']' (xs.map fun x => (f x).IsText) cs) (rest : List Char) :
    Takes (items item .after) cs rest (xs.map g) := by
  induction xs generalizing cs with
  | nil =>
    cases h with
    | close hws => exact .spaced_items hws (takes_items_close (by decide) rest)
  | cons x xs ih =>
    cases h with
    | comma hws hws' hx hmore =>
      have htail := ih (fun x hx => hitem x (.tail _ hx)) hmore
      have hcons : Takes (items item .comma) _ rest _ :=
        (hitem x (.head _)).items_cons (by decide) hws' hx hmore htail
      exact .spaced_items hws hcons.comma_items

/-- A list is read when its items are. -/
theorem reads_list (xs : List β) (hitem : ∀ x ∈ xs, Reads item (f x).IsText (g x)) :
    Reads (list item) (Json.list (xs.map f)).IsText (xs.map g) := by
  intro ws cs rest hws hcs _
  obtain ⟨ds, rfl, hds⟩ := hcs
  have hitems : Takes (items item .first) ds rest (xs.map g) := by
    rw [itemTexts_eq_map, List.map_map] at hds
    cases xs with
    | nil =>
      cases hds with
      | none hws => exact .spaced_items hws (takes_items_close (by decide) rest)
    | cons x xs =>
      cases hds with
      | some hws hx hmore =>
        have htail := takes_items_after xs (fun x hx => hitem x (.tail _ hx)) hmore rest
        exact (hitem x (.head _)).items_cons (by decide) hws hx hmore htail
  exact .past_spaces hws rfl (by decide) ((takes_step '[' _).bind hitems)

end Lists

section Records

variable {members : List (Member σ)} {place : Place} {draft draft' draft'' : σ}

/-- White space between entries is passed over. -/
theorem Takes.spaced_entries (hws : Blank ws)
    (h : Takes (entries members place draft) cs rest draft') :
    Takes (entries members place draft) (ws ++ cs) rest draft' := by
  induction ws with
  | nil => exact h
  | cons c ws ih =>
    have htail := ih fun c hc => hws c (List.mem_cons_of_mem _ hc)
    unfold Takes at htail ⊢
    rw [List.cons_append, List.cons_append, entries, if_pos (hws c List.mem_cons_self), htail]
    rfl

theorem takes_entries_close (hplace : place ≠ .comma) (draft : σ) (rest : List Char) :
    Takes (entries members place draft) ['\x7d'] rest draft := by
  unfold Takes
  rw [List.singleton_append, entries]
  simp [isSpace, hplace]

theorem Takes.comma_entries (h : Takes (entries members .comma draft) cs rest draft') :
    Takes (entries members .after draft) (',' :: cs) rest draft' := by
  unfold Takes at h ⊢
  rw [List.cons_append, entries, h]
  simp [isSpace, Except.map]

/-- An entry is read into the draft. -/
theorem Takes.entry_entries (hplace : place ≠ .after)
    (he : Takes (entry members draft) ds (cs ++ rest) draft')
    (h : Takes (entries members .after draft') cs rest draft'') :
    Takes (entries members place draft) ('"' :: ds ++ cs) rest draft'' := by
  unfold Takes at he h ⊢
  rw [List.append_assoc, List.cons_append, entries]
  simp [isSpace, hplace, he, h, Except.map]

theorem takes_colon (hws : Blank ws) (rest : List Char) : Takes colon (ws ++ [':']) rest () :=
  .past_spaces hws rfl (by decide) (takes_step ':' rest)

/-- Reading fields one after another makes a draft of another one. -/
inductive Fills (members : List (Member σ)) : σ → List (String × Json) → σ → Prop
  /-- Nothing is left to read. -/
  | done {draft : σ} : Fills members draft [] draft
  /-- The value of a key that is not set yet is read into the draft. -/
  | more {draft draft' draft'' : σ} {key : String} {value : Json} {member : Member σ}
      {fields : List (String × Json)} (hkey : members.find? (·.key == key) = some member)
      (hnew : member.isSet draft = false) (hvalue : Reads (member.read draft) value.IsText draft')
      (h : Fills members draft' fields draft'') :
      Fills members draft ((key, value) :: fields) draft''

variable {key : String} {value : Json} {member : Member σ}

/-- A key and its value and what follows them are read up to the end of the record. -/
theorem Reads.entries_cons (h : Reads (member.read draft) value.IsText draft')
    (hkey : members.find? (·.key == key) = some member) (hnew : member.isSet draft = false)
    (hplace : place ≠ .after) (hws : Blank ws) (hcs : Keyed key value.IsText cs)
    {ways : List (List Char → Prop)} (hmore : Followed '\x7d' ways ds)
    (hds : Takes (entries members .after draft') ds rest draft'') :
    Takes (entries members place draft) (ws ++ (cs ++ ds)) rest draft'' := by
  cases hcs with
  | @intro ks ws₁ ws₂ vs hquotes hws₁ hws₂ hvs =>
    obtain ⟨body, rfl⟩ := hquotes.exists_eq_cons
    have hvalue : Takes (member.read draft) (ws₂ ++ vs) (ds ++ rest) draft' :=
      h hws₂ hvs (hmore.endsNumber (.inr rfl) rest)
    have hentry : Takes (entry members draft) (body ++ (ws₁ ++ [':'] ++ (ws₂ ++ vs))) (ds ++ rest)
        draft' := by
      refine (takes_text hquotes _).bind ?_
      simp only [hkey, hnew, Bool.false_eq_true, if_false]
      exact (takes_colon hws₁ _).bind hvalue
    have hentries := Takes.entry_entries hplace hentry hds
    exact .spaced_entries hws (by simpa using hentries)

/-- The fields behind a field are read up to the end of the record. -/
theorem Fills.takes_after {fields : List (String × Json)} (h : Fills members draft fields draft')
    (hcs : Followed '\x7d' (memberTexts fields) cs) (rest : List Char) :
    Takes (entries members .after draft) cs rest draft' := by
  induction h generalizing cs with
  | done =>
    cases hcs with
    | close hws => exact .spaced_entries hws (takes_entries_close (by decide) _ rest)
  | more hkey hnew hvalue _ ih =>
    cases hcs with
    | comma hws hws' he hmore =>
      have hcons : Takes (entries members .comma _) _ rest _ :=
        hvalue.entries_cons hkey hnew (by decide) hws' he hmore (ih hmore)
      exact .spaced_entries hws hcons.comma_entries

/-- A record is read when its fields are. -/
theorem Fills.reads_record {fields : List (String × Json)} (h : Fills members draft fields draft') :
    Reads (record members draft) (Json.object fields).IsText draft' := by
  intro ws cs rest hws hcs _
  obtain ⟨ds, rfl, hds⟩ := hcs
  have hentries : Takes (entries members .first draft) ds rest draft' := by
    cases h with
    | done =>
      cases hds with
      | none hws => exact .spaced_entries hws (takes_entries_close (by decide) _ rest)
    | more hkey hnew hvalue h =>
      cases hds with
      | some hws he hmore =>
        exact hvalue.entries_cons hkey hnew (by decide) hws he hmore (h.takes_after hmore rest)
  exact .past_spaces hws rfl (by decide) ((takes_step '\x7b' _).bind hentries)

end Records

theorem reads_string (t : String) : Reads string (Json.text t).IsText t :=
  fun _ _ rest hws hcs _ => takes_string hws hcs rest

theorem reads_word (n : UInt32) : Reads word (Json.number n.toNat).IsText n := by
  rintro ws _ rest hws rfl hrest
  exact takes_word hws n hrest

end Scan

end Safelist.Json
