import Mathlib.Data.Nat.Digits.Defs
import Safelist.Proofs.Json.Grammar

/-!
# A text is a text of one value

Where two values have texts that begin the same characters, they are the same value
and these are the same text, unless a number goes on. So what is told by a text can
not be told by it in another way.
-/

namespace Safelist.Json

open Text Lexical

/-- Where ways of writing two things begin the same characters, something holds and the characters
that they take are the same. -/
def Agree (way way' : List Char → Prop) (P : Prop) : Prop :=
  ∀ ⦃cs cs' rest rest' : List Char⦄, way cs → way' cs' → cs ++ rest = cs' ++ rest' →
    EndsNumber rest → EndsNumber rest' → P ∧ cs = cs'

variable {cs cs' ds ds' ws ws' rest rest' : List Char}

/-- White space goes as far as the first character that is none. -/
theorem Blank.append_inj {c c' : Char} (hws : Blank ws) (hws' : Blank ws')
    (hc : Scan.isSpace c = false) (hc' : Scan.isSpace c' = false)
    (h : ws ++ c :: cs = ws' ++ c' :: cs') : ws = ws' ∧ c = c' ∧ cs = cs' := by
  have hspan : ∀ {ws cs : List Char} {c : Char}, Blank ws → Scan.isSpace c = false →
      (ws ++ c :: cs).takeWhile Scan.isSpace = ws :=
    fun hws hc => takeWhile_append_eq hws hc
  have hsame : ws = ws' := by rw [← hspan hws hc, h, hspan hws' hc']
  rw [hsame] at h
  exact ⟨hsame, List.cons.inj (List.append_cancel_left h)⟩

/-- Quotes are around one text. -/
theorem Quotes.append_inj {t t' : String} (h : Quotes t cs) (h' : Quotes t' cs')
    (heq : cs ++ rest = cs' ++ rest') : t = t' ∧ cs = cs' := by
  cases h with
  | @intro body hbody =>
    cases h' with
    | @intro body' hbody' =>
      have htail : body ++ '"' :: rest = body' ++ '"' :: rest' := by simpa using heq
      have hread := Quoted.body_closed hbody rest
      rw [htail, Quoted.body_closed hbody' rest'] at hread
      simp only [Except.ok.injEq, Prod.mk.injEq, Nat.add_right_cancel_iff] at hread
      have hsame : body = body' := List.append_inj_left htail hread.2.symm
      exact ⟨String.toList_inj.mp hread.1.symm, by rw [hsame]⟩

/-- A number has digits of its own. -/
theorem toDigits_append_inj {m n : Nat} (h : Nat.toDigits 10 m ++ rest = Nat.toDigits 10 n ++ rest')
    (hrest : EndsNumber rest) (hrest' : EndsNumber rest') : m = n := by
  have hdigits : Nat.toDigits 10 m = Nat.toDigits 10 n := by
    rw [← takeWhile_isDigit_toDigits hrest, h, takeWhile_isDigit_toDigits hrest']
  calc m = Nat.ofDigitChars 10 (Nat.toDigits 10 m) 0 := Nat.ofDigitChars_ten_toDigits.symm
    _ = Nat.ofDigitChars 10 (Nat.toDigits 10 n) 0 := by rw [hdigits]
    _ = n := Nat.ofDigitChars_ten_toDigits

section Entries

variable {ι : Type} {way : ι → List Char → Prop} {closing : Char} {xs ys : List ι}

/-- Where an entry begins, with white space before it, two entries are told apart. -/
theorem Agree.entry {x y : ι} {P : Prop} (h : Agree (way x) (way y) P)
    (hbegin : ∀ x cs, way x cs → Begins closing cs)
    (hws : Blank ws) (hws' : Blank ws') (hx : way x cs) (hy : way y cs')
    (heq : ws ++ (cs ++ rest) = ws' ++ (cs' ++ rest')) (hrest : EndsNumber rest)
    (hrest' : EndsNumber rest') : P ∧ ws = ws' ∧ cs = cs' ∧ rest = rest' := by
  have htail : ws = ws' ∧ cs ++ rest = cs' ++ rest' := by
    obtain ⟨c, more, rfl, hc, -⟩ := hbegin x cs hx
    obtain ⟨c', more', rfl, hc', -⟩ := hbegin y cs' hy
    obtain ⟨hsame, hc, hmore⟩ := hws.append_inj hws' hc hc' heq
    exact ⟨hsame, congrArg₂ List.cons hc hmore⟩
  obtain ⟨hp, rfl⟩ := h hx hy htail.2 hrest hrest'
  exact ⟨hp, htail.1, rfl, List.append_cancel_left htail.2⟩

section Brackets

variable (hclosing : closing = ']' ∨ closing = '\x7d')
  (hbegin : ∀ x cs, way x cs → Begins closing cs)
  (hagree : ∀ x ∈ xs, ∀ y, Agree (way x) (way y) (x = y))

include hclosing hbegin hagree

/-- Behind an entry, the other entries are the same when each agrees with any other. -/
theorem Followed.append_inj (h : Followed closing (xs.map way) cs)
    (h' : Followed closing (ys.map way) cs') (heq : cs ++ rest = cs' ++ rest') :
    xs = ys ∧ cs = cs' := by
  have hspace : Scan.isSpace closing = false := by rcases hclosing with rfl | rfl <;> decide
  have hcomma : closing ≠ ',' := by rcases hclosing with rfl | rfl <;> decide
  induction xs generalizing ys cs cs' with
  | nil =>
    cases h with
    | close hws =>
      cases ys with
      | nil =>
        cases h' with
        | close hws' =>
          rw [List.append_assoc, List.append_assoc] at heq
          obtain ⟨rfl, -, -⟩ := hws.append_inj hws' hspace hspace heq
          exact ⟨rfl, rfl⟩
      | cons y ys =>
        cases h' with
        | comma hws' =>
          rw [List.append_assoc, List.append_assoc] at heq
          exact absurd (hws.append_inj hws' hspace (by decide) heq).2.1 hcomma
  | cons x xs ih =>
    cases h with
    | comma hws hspaces hx hmore =>
      cases ys with
      | nil =>
        cases h' with
        | close hws' =>
          rw [List.append_assoc, List.append_assoc] at heq
          exact absurd (hws.append_inj hws' (by decide) hspace heq).2.1.symm hcomma
      | cons y ys =>
        cases h' with
        | comma hws' hspaces' hy hmore' =>
          simp only [List.append_assoc, List.cons_append] at heq
          obtain ⟨rfl, -, heq⟩ := hws.append_inj hws' (by decide) (by decide) heq
          obtain ⟨rfl, rfl, rfl, htail⟩ := (hagree x List.mem_cons_self y).entry hbegin hspaces
            hspaces' hx hy heq (hmore.endsNumber hclosing _) (hmore'.endsNumber hclosing _)
          obtain ⟨rfl, rfl⟩ := ih (fun x hx => hagree x (List.mem_cons_of_mem _ hx)) hmore hmore'
            htail
          exact ⟨rfl, rfl⟩

/-- Between brackets, entries are the same when each agrees with any other. -/
theorem Listed.append_inj (h : Listed closing (xs.map way) cs)
    (h' : Listed closing (ys.map way) cs') (heq : cs ++ rest = cs' ++ rest') :
    xs = ys ∧ cs = cs' := by
  have hspace : Scan.isSpace closing = false := by rcases hclosing with rfl | rfl <;> decide
  cases xs with
  | nil =>
    cases h with
    | none hws =>
      cases ys with
      | nil =>
        cases h' with
        | none hws' =>
          rw [List.append_assoc, List.append_assoc] at heq
          obtain ⟨rfl, -, -⟩ := hws.append_inj hws' hspace hspace heq
          exact ⟨rfl, rfl⟩
      | cons y ys =>
        cases h' with
        | some hws' hy =>
          obtain ⟨c, more, rfl, hc, hne⟩ := hbegin y _ hy
          simp only [List.append_assoc, List.cons_append, List.nil_append] at heq
          exact absurd (hws.append_inj hws' hspace hc heq).2.1.symm hne
  | cons x xs =>
    cases h with
    | some hws hx hmore =>
      cases ys with
      | nil =>
        cases h' with
        | none hws' =>
          obtain ⟨c, more, rfl, hc, hne⟩ := hbegin x _ hx
          simp only [List.append_assoc, List.cons_append, List.nil_append] at heq
          exact absurd (hws.append_inj hws' hc hspace heq).2.1 hne
      | cons y ys =>
        cases h' with
        | some hws' hy hmore' =>
          simp only [List.append_assoc] at heq
          obtain ⟨rfl, rfl, rfl, htail⟩ := (hagree x List.mem_cons_self y).entry hbegin hws hws' hx
            hy heq (hmore.endsNumber hclosing _) (hmore'.endsNumber hclosing _)
          obtain ⟨rfl, rfl⟩ := hmore.append_inj hclosing hbegin
            (fun x hx => hagree x (List.mem_cons_of_mem _ hx)) hmore' htail
          exact ⟨rfl, rfl⟩

end Brackets

end Entries

/-- Members are told apart by their keys, and then by their values. -/
theorem Keyed.agree {m m' : String × Json} (h : ∀ j, Agree m.2.IsText j.IsText (m.2 = j)) :
    Agree (Keyed m.1 m.2.IsText) (Keyed m'.1 m'.2.IsText) (m = m') := by
  intro cs cs' rest rest' hm hm' heq hrest hrest'
  obtain ⟨key, value⟩ := m
  obtain ⟨key', value'⟩ := m'
  cases hm with
  | intro hkey hws hspaces hvalue =>
    cases hm' with
    | intro hkey' hws' hspaces' hvalue' =>
      rw [List.append_assoc _ _ rest, List.append_assoc _ _ rest'] at heq
      obtain ⟨rfl, rfl⟩ := hkey.append_inj hkey' heq
      have hcolon := List.append_cancel_left heq
      simp only [List.append_assoc, List.cons_append] at hcolon
      obtain ⟨rfl, -, htail⟩ := hws.append_inj hws' (by decide) (by decide) hcolon
      obtain ⟨rfl, rfl, rfl, -⟩ := (h value').entry (fun _ _ => IsText.begins) hspaces hspaces'
        hvalue hvalue' htail hrest hrest'
      exact ⟨rfl, rfl⟩

theorem IsText.kind_eq {j j' : Json} (h : j.IsText cs) (h' : j'.IsText cs')
    (heq : cs ++ rest = cs' ++ rest') : j.kind = j'.kind := by
  obtain ⟨c, more, rfl, hc⟩ := h.kindAt
  obtain ⟨c', more', rfl, hc'⟩ := h'.kindAt
  have hsame : c = c' := (List.cons.inj heq).1
  rw [← hsame, hc] at hc'
  exact Option.some.inj hc'

/-- Values are told apart by their texts. -/
theorem IsText.agree (j j' : Json) : Agree j.IsText j'.IsText (j = j') := by
  intro cs cs' rest rest' h h' heq hrest hrest'
  induction j using inductionOn generalizing j' cs cs' rest rest' with
  | number n =>
    cases j' with
    | number n' =>
      cases h
      cases h'
      obtain rfl := toDigits_append_inj heq hrest hrest'
      exact ⟨rfl, rfl⟩
    | _ => cases h.kind_eq h' heq
  | boolean b =>
    cases j' with
    | boolean b' =>
      cases h
      cases h'
      cases b <;> cases b' <;> first | exact ⟨rfl, rfl⟩ | cases heq
    | _ => cases h.kind_eq h' heq
  | text t =>
    cases j' with
    | text t' =>
      obtain ⟨rfl, rfl⟩ := Quotes.append_inj h h' heq
      exact ⟨rfl, rfl⟩
    | _ => cases h.kind_eq h' heq
  | list items ih =>
    cases j' with
    | list items' =>
      obtain ⟨ds, rfl, hds⟩ := h
      obtain ⟨ds', rfl, hds'⟩ := h'
      rw [itemTexts_eq_map] at hds hds'
      obtain ⟨rfl, rfl⟩ := hds.append_inj (.inl rfl) (fun _ _ => IsText.begins)
        (fun item hitem j => ih item hitem j) hds' (List.cons.inj heq).2
      exact ⟨rfl, rfl⟩
    | _ => cases h.kind_eq h' heq
  | object members ih =>
    cases j' with
    | object members' =>
      obtain ⟨ds, rfl, hds⟩ := h
      obtain ⟨ds', rfl, hds'⟩ := h'
      rw [memberTexts_eq_map] at hds hds'
      obtain ⟨rfl, rfl⟩ := hds.append_inj (.inr rfl) (fun _ _ => Keyed.begins)
        (fun m hm m' => Keyed.agree fun j => ih m hm j) hds' (List.cons.inj heq).2
      exact ⟨rfl, rfl⟩
    | _ => cases h.kind_eq h' heq

/-- No text is a text of two values. -/
theorem IsText.unique {j j' : Json} (h : j.IsText cs) (h' : j'.IsText cs) : j = j' :=
  (IsText.agree j j' h h' rfl endsNumber_nil endsNumber_nil).1

end Safelist.Json
