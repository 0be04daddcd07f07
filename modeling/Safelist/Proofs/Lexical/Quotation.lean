import Safelist.Proofs.Lexical.StringSpelling

/-!
# Reading back quoted text

A style of writing text between double quotes is faithful when it picks, for every
character, one of the spellings of that character. Both styles are, so text that is
written in one of them is read back as it was, whatever characters it holds and
whatever follows its closing quote.
-/

namespace Safelist

/-- No digit of a code is a control character. -/
theorem Text.Hex.IsCode.not_isLowControl {ds : List Char} {n : Nat} (h : IsCode ds n) :
    ∀ d ∈ ds, Escape.isLowControl d = false := by
  intro d hd
  rw [Bool.eq_false_iff]
  intro hlow
  have hnone : value? d = none :=
    forall_char_lt (b := 32) (P := fun d => value? d = none) (by decide) d
      (by simpa [Escape.isLowControl] using hlow)
  have hdigit := h.isSome_value? hd
  rw [hnone] at hdigit
  cases hdigit

namespace Lexical.Quoted

open Text

/-- What makes a style pick spellings: its letters are those of the short escapes, codes have four
digits, and no quote, backslash or low control character stands for itself. -/
structure Faithful (style : Escape) : Prop where
  /-- A letter stands for the character. -/
  letter : ∀ {c letter : Char}, style.short c = some letter → (letter, c) ∈ shortEscapes
  /-- A code has four digits. -/
  code : ∀ {c : Char}, style.coded c = true → c.toNat < 65536
  /-- What stands for itself ends no text and begins no escape. -/
  plain : ∀ {c : Char}, style.short c = none → style.coded c = false →
    c ≠ '"' ∧ c ≠ '\\' ∧ Escape.isLowControl c = false

/-- JSON documents are written faithfully. -/
theorem faithful_json : Faithful Escape.json where
  letter {c letter} h := by
    unfold Escape.json at h
    simp only at h
    split at h <;> cases h <;> decide
  code {c} h := by
    have hlow : c.toNat < 0x20 := by simpa [Escape.json, Escape.isLowControl] using h
    omega
  plain {c} h hc := by
    refine ⟨?_, ?_, hc⟩ <;> rintro rfl <;> cases h

/-- Log lines are written faithfully: every low control character is a control character. -/
theorem faithful_log : Faithful Escape.log where
  letter {c letter} h := by
    unfold Escape.log at h
    simp only at h
    split at h <;> cases h <;> decide
  code {c} h := by
    simp only [Escape.log, Escape.isControl, Bool.or_eq_true, Bool.and_eq_true,
      decide_eq_true_eq] at h
    omega
  plain {c} h hc := by
    have hlow : Escape.isLowControl c = false := by
      simp only [Escape.log, Escape.isControl, Bool.or_eq_false_iff] at hc
      exact hc.1
    refine ⟨?_, ?_, hlow⟩ <;> rintro rfl <;> cases h

namespace Faithful

variable {style : Escape} (h : Faithful style)

include h

/-- A written character spells itself. -/
theorem charSpelled (c : Char) : CharSpelled (style.char c) c := by
  unfold Escape.char
  split
  · rename_i letter hletter
    exact .short (h.letter hletter)
  · rename_i hshort
    split
    · rename_i hcoded
      exact .code (Hex.isCode_four (h.code hcoded))
    · rename_i hcoded
      obtain ⟨hquote, hback, hlow⟩ := h.plain hshort (Bool.eq_false_iff.mpr hcoded)
      exact .raw hquote hback (by rintro rfl; cases hlow) (by rintro rfl; cases hlow)

/-- A written text spells itself. -/
theorem spelled (text : List Char) : Spelled (style.body text) text := by
  induction text with
  | nil => exact .nil
  | cons c text ih => exact .cons (h.charSpelled c) ih

/-- No low control character is written. -/
theorem not_isLowControl (text : List Char) :
    ∀ d ∈ style.body text, Escape.isLowControl d = false := by
  have hchar : ∀ c, ∀ d ∈ style.char c, Escape.isLowControl d = false := by
    intro c
    unfold Escape.char
    split
    · rename_i letter hletter
      have hall : (shortEscapes.all fun p => !Escape.isLowControl p.1) = true := by decide
      have hlow := List.all_eq_true.mp hall _ (h.letter hletter)
      exact List.forall_mem_cons.mpr ⟨by decide, List.forall_mem_singleton.mpr (by simpa using hlow)⟩
    · rename_i hshort
      split
      · rename_i hcoded
        have hdigits := (Hex.isCode_four (h.code hcoded)).not_isLowControl
        exact List.forall_mem_cons.mpr ⟨by decide, List.forall_mem_cons.mpr ⟨by decide, hdigits⟩⟩
      · rename_i hcoded
        exact List.forall_mem_singleton.mpr (h.plain hshort (Bool.eq_false_iff.mpr hcoded)).2.2
  intro d hd
  obtain ⟨c, -, hc⟩ := List.mem_flatMap.mp hd
  exact hchar c d hc

end Faithful

/-- A text that is written in the style of JSON spells itself. -/
theorem spelled_json (text : List Char) : Spelled (Escape.json.body text) text :=
  faithful_json.spelled text

/-- A quoted text is scanned as a plain string. Where the text is empty this takes that
no third quote follows. -/
theorem scan_json {text rest : List Char} (h : rest.head? ≠ some '"') :
    scan (Escape.json.body text ++ '"' :: rest) =
      .ok (.string (String.ofList text), (Escape.json.body text).length + 1) := by
  have hblock : ¬['"', '"'] <+: Escape.json.body text ++ '"' :: rest := by
    refine (spelled_json text).not_block ?_
    rintro ⟨tail, ht⟩
    exact h (by rw [← (List.cons.inj ht).2]; rfl)
  rw [scan_of_not_block hblock, body_closed (spelled_json text)]
  rfl

end Lexical.Quoted

end Safelist
