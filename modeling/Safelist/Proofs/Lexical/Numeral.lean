import Mathlib.Data.List.TakeWhile
import Safelist.Lexical.Number

/-!
# The grammar of numbers

A numeral is a number taken apart: an optional minus sign, an integer part
without leading zeros, an optional fraction and an optional exponent. The main
statement is that scanning reads exactly the numerals that nothing continues.
-/

namespace Safelist.Lexical

/-- Characters that are taken as far as they go are not taken from behind the text, where
another one follows. -/
theorem takeWhile_append_of_head? {p : Char → Bool} {rest : List Char}
    (h : rest.head?.any p = false) (cs : List Char) :
    (cs ++ rest).takeWhile p = cs.takeWhile p := by
  induction cs with
  | nil =>
    cases rest with
    | nil => rfl
    | cons c rest => simp_all
  | cons c cs ih => rw [List.cons_append, List.takeWhile_cons, List.takeWhile_cons, ih]

/-- They are taken up to that one. -/
theorem takeWhile_append_eq {p : Char → Bool} {cs rest : List Char} (hcs : ∀ c ∈ cs, p c = true)
    (h : rest.head?.any p = false) : (cs ++ rest).takeWhile p = cs := by
  rw [takeWhile_append_of_head? h, List.takeWhile_eq_self_iff]
  exact hcs

namespace Number

/-- One digit or more, and nothing else. -/
def IsDigits (ds : List Char) : Prop := ds ≠ [] ∧ ∀ d ∈ ds, d.isDigit = true

/-- A period with digits. -/
def IsFraction (part : List Char) : Prop := ∃ ds, IsDigits ds ∧ part = '.' :: ds

/-- The letter of an exponent with an optional sign and digits. -/
def IsExponent (part : List Char) : Prop :=
  ∃ e s ds, (e = 'e' ∨ e = 'E') ∧ (s = [] ∨ s = ['+'] ∨ s = ['-']) ∧ IsDigits ds ∧
    part = e :: (s ++ ds)

/-- A number in its parts. An absent fraction or exponent is empty. -/
structure Numeral where
  /-- The minus sign, if there is one. -/
  sign : List Char
  /-- The integer part. -/
  whole : List Char
  /-- The fraction with its period. -/
  fraction : List Char
  /-- The exponent with its letter and sign. -/
  exponent : List Char
  /-- Only a minus sign may stand in front. -/
  sign_eq : sign = [] ∨ sign = ['-']
  /-- The integer part consists of digits. -/
  whole_digits : IsDigits whole
  /-- A zero in front is the whole integer part. -/
  whole_zero : whole.head? = some '0' → whole = ['0']
  /-- The fraction may be absent. -/
  fraction_ok : fraction = [] ∨ IsFraction fraction
  /-- The exponent may be absent. -/
  exponent_ok : exponent = [] ∨ IsExponent exponent

namespace Numeral

/-- The characters of a number. -/
def text (n : Numeral) : List Char := n.sign ++ n.whole ++ n.fraction ++ n.exponent

/-- Whether a number has neither fraction nor exponent. -/
def isWhole (n : Numeral) : Bool := n.fraction.isEmpty && n.exponent.isEmpty

/-- The lexeme of a number. -/
def lexeme (n : Numeral) : Lexeme :=
  if n.isWhole then .int (String.ofList n.text) else .float (String.ofList n.text)

/-- The kind of a number is chosen before its text is attached. -/
theorem lexeme_eq (n : Numeral) :
    n.lexeme = (if n.fraction.isEmpty && n.exponent.isEmpty then Lexeme.int else Lexeme.float)
      (String.ofList n.text) := by
  unfold lexeme isWhole
  split <;> rfl

end Numeral

/-- Whether what follows would be part of a number, or may not follow one. -/
def isContinued (rest : List Char) : Bool := rest.head?.any fun c => c.isDigit || continues c

/-- Digits are read as far as they go. -/
theorem digits_append {ds rest : List Char} (hd : IsDigits ds)
    (hr : rest.head?.any Char.isDigit = false) : digits (ds ++ rest) = .ok (ds, rest) := by
  obtain ⟨hne, hall⟩ := hd
  have ht : (ds ++ rest).takeWhile Char.isDigit = ds := takeWhile_append_eq hall hr
  have hw : (ds ++ rest).dropWhile Char.isDigit = rest := by
    rw [List.dropWhile_append_of_pos hall]
    cases rest with
    | nil => rfl
    | cons c rest => simp_all
  unfold digits
  rw [ht, hw]
  cases ds with
  | nil => exact absurd rfl hne
  | cons d ds => rfl

/-- What is read as digits stands there, and no digit follows it. -/
theorem digits_eq_ok {cs ds rest : List Char} (h : digits cs = .ok (ds, rest)) :
    IsDigits ds ∧ cs = ds ++ rest ∧ rest.head?.any Char.isDigit = false := by
  unfold digits at h
  split at h
  · cases h
  · rename_i hne
    cases h
    refine ⟨⟨hne, fun d hd => List.mem_takeWhile_imp hd⟩, List.takeWhile_append_dropWhile.symm, ?_⟩
    have := List.head?_dropWhile_not Char.isDigit cs
    cases hc : (cs.dropWhile Char.isDigit).head? with
    | none => rfl
    | some c => simp_all

/-- A minus sign is read if one stands there. -/
theorem sign_eq (cs : List Char) :
    ((sign cs).1 = [] ∨ (sign cs).1 = ['-']) ∧ cs = (sign cs).1 ++ (sign cs).2 := by
  unfold sign
  split <;> simp

/-- The integer part of a number is read, whatever follows it. -/
theorem integerPart_append {whole rest : List Char} (hd : IsDigits whole)
    (hz : whole.head? = some '0' → whole = ['0']) (hr : rest.head?.any Char.isDigit = false) :
    integerPart (whole ++ rest) = .ok (whole, rest) := by
  obtain ⟨d, ds, rfl⟩ := List.exists_cons_of_ne_nil hd.1
  by_cases h0 : d = '0'
  · subst h0
    cases hz rfl
    simp [integerPart, hr]
  · rw [List.cons_append, integerPart.eq_2 _ (by simpa using h0)]
    exact digits_append hd hr

/-- What is read as an integer part has no leading zeros. -/
theorem integerPart_eq_ok {cs whole rest : List Char} (h : integerPart cs = .ok (whole, rest)) :
    IsDigits whole ∧ (whole.head? = some '0' → whole = ['0']) ∧ cs = whole ++ rest ∧
      rest.head?.any Char.isDigit = false := by
  unfold integerPart at h
  split at h
  · rename_i tail
    split at h
    · cases h
    · rename_i hn
      cases h
      exact ⟨⟨by simp, by simp⟩, fun _ => rfl, rfl, by simpa using hn⟩
  · rename_i hz
    obtain ⟨hd, rfl, hr⟩ := digits_eq_ok h
    refine ⟨hd, fun h0 => ?_, rfl, hr⟩
    cases whole with
    | nil => cases h0
    | cons c tail =>
      cases h0
      exact absurd rfl (hz (tail ++ rest))

/-- A fraction is read up to what does not belong to it. -/
theorem fraction_append {part rest : List Char}
    (hp : part = [] ∨ IsFraction part)
    (hd : rest.head?.any Char.isDigit = false) (hr : rest.head? ≠ some '.') :
    fraction (part ++ rest) = .ok (part, rest) := by
  obtain rfl | ⟨ds, hds, rfl⟩ := hp
  · rw [List.nil_append, fraction.eq_2 _ (by rintro tail rfl; exact hr rfl)]
    rfl
  · rw [List.cons_append, fraction, digits_append hds hd]
    rfl

/-- What is read as a fraction is one, or is empty where no period stands. -/
theorem fraction_eq_ok {cs part rest : List Char} (h : fraction cs = .ok (part, rest)) :
    (part = [] ∨ IsFraction part) ∧ cs = part ++ rest ∧
      (cs.head?.any Char.isDigit = false → rest.head?.any Char.isDigit = false) := by
  unfold fraction at h
  split at h
  · rename_i tail
    cases hd : digits tail with
    | error problem => simp [hd, bind, Except.bind] at h
    | ok result =>
      rw [hd] at h
      cases h
      obtain ⟨hds, htail, hr⟩ := digits_eq_ok hd
      exact ⟨.inr ⟨_, hds, rfl⟩, by rw [htail]; rfl, fun _ => hr⟩
  · cases h
    exact ⟨.inl rfl, rfl, id⟩

/-- The sign of an exponent is read in front of its digits. -/
theorem exponentSign_append {s rest : List Char} (hs : s = [] ∨ s = ['+'] ∨ s = ['-'])
    (hr : rest.head?.any Char.isDigit = true) : exponentSign (s ++ rest) = (s, rest) := by
  obtain rfl | rfl | rfl := hs
  · cases rest with
    | nil => rfl
    | cons c rest =>
      rw [List.nil_append, exponentSign.eq_3]
      all_goals
        rintro tail ⟨⟩
        simp at hr
  · rfl
  · rfl

/-- What is read as the sign of an exponent is one, or is empty. -/
theorem exponentSign_eq (cs : List Char) :
    ((exponentSign cs).1 = [] ∨ (exponentSign cs).1 = ['+'] ∨ (exponentSign cs).1 = ['-']) ∧
      cs = (exponentSign cs).1 ++ (exponentSign cs).2 := by
  unfold exponentSign
  split <;> simp

/-- An exponent is read up to what does not belong to it. -/
theorem exponent_append {part rest : List Char}
    (hp : part = [] ∨ IsExponent part)
    (hr : isContinued rest = false) : exponent (part ++ rest) = .ok (part, rest) := by
  obtain rfl | ⟨e, s, ds, he, hs, hds, rfl⟩ := hp
  · cases rest with
    | nil => rfl
    | cons c rest =>
      have hc : ¬(c = 'e' || c = 'E') = true := by
        intro he
        obtain rfl | rfl : c = 'e' ∨ c = 'E' := by simpa using he
        all_goals simp [isContinued, continues] at hr
      rw [List.nil_append, exponent, if_neg hc]
      rfl
  · have hd : rest.head?.any Char.isDigit = false := by
      cases rest with
      | nil => rfl
      | cons c rest => simp_all [isContinued]
    have hhead : (ds ++ rest).head?.any Char.isDigit = true := by
      obtain ⟨d, ds, rfl⟩ := List.exists_cons_of_ne_nil hds.1
      simpa using hds.2 d (by simp)
    rw [List.cons_append, List.append_assoc, exponent, if_pos (by simpa using he),
      exponentSign_append hs hhead]
    simp only [digits_append hds hd]
    rfl

/-- What is read as an exponent is one, or is empty where no letter stands. -/
theorem exponent_eq_ok {cs part rest : List Char} (h : exponent cs = .ok (part, rest)) :
    (part = [] ∨ IsExponent part) ∧ cs = part ++ rest ∧
      (cs.head?.any Char.isDigit = false → rest.head?.any Char.isDigit = false) := by
  unfold exponent at h
  split at h
  · cases h
    exact ⟨.inl rfl, rfl, id⟩
  · rename_i c tail
    split at h
    · rename_i he
      obtain ⟨hs, htail⟩ := exponentSign_eq tail
      cases hd : digits (exponentSign tail).2 with
      | error problem => simp [hd, bind, Except.bind] at h
      | ok result =>
        simp only [hd] at h
        cases h
        obtain ⟨hds, hrest, hr⟩ := digits_eq_ok hd
        refine ⟨.inr ⟨c, _, _, by simpa using he, hs, hds, rfl⟩, ?_, fun _ => hr⟩
        simp only [List.cons_append, List.append_assoc, ← hrest, ← htail]
    · cases h
      exact ⟨.inl rfl, rfl, id⟩

/-- What follows a number begins with no digit. -/
theorem any_isDigit_of_not_isContinued {rest : List Char} (h : isContinued rest = false) :
    rest.head?.any Char.isDigit = false := by
  cases rest with
  | nil => rfl
  | cons c rest => simp_all [isContinued]

/-- An exponent does not continue the digits in front of it. -/
theorem head?_exponent {part rest : List Char} (hp : part = [] ∨ IsExponent part)
    (hr : isContinued rest = false) :
    (part ++ rest).head?.any Char.isDigit = false ∧ (part ++ rest).head? ≠ some '.' := by
  obtain rfl | ⟨e, s, ds, he, -, -, rfl⟩ := hp
  · refine ⟨any_isDigit_of_not_isContinued hr, ?_⟩
    cases rest with
    | nil => simp
    | cons c rest =>
      rintro ⟨⟩
      simp [isContinued, continues] at hr
  · obtain rfl | rfl := he <;> simp

/-- A fraction does not continue the digits in front of it. -/
theorem head?_fraction {part rest : List Char} (hp : part = [] ∨ IsFraction part)
    (hr : rest.head?.any Char.isDigit = false) :
    (part ++ rest).head?.any Char.isDigit = false := by
  obtain rfl | ⟨ds, -, rfl⟩ := hp
  · exact hr
  · simp

/-- Every numeral that nothing continues is scanned as the number it is. -/
theorem scan_append (n : Numeral) {rest : List Char} (hr : isContinued rest = false) :
    scan (n.text ++ rest) = .ok (n.lexeme, n.text.length) := by
  obtain ⟨hed, hep⟩ := head?_exponent n.exponent_ok hr
  have hfd := head?_fraction n.fraction_ok hed
  have hsign : sign (n.text ++ rest) =
      (n.sign, n.whole ++ (n.fraction ++ (n.exponent ++ rest))) := by
    simp only [Numeral.text, List.append_assoc]
    obtain hs | hs := n.sign_eq
    · obtain ⟨d, ds, hw⟩ := List.exists_cons_of_ne_nil n.whole_digits.1
      have hd : d.isDigit = true := n.whole_digits.2 d (by simp [hw])
      rw [hs, hw, List.nil_append, List.cons_append, sign.eq_2]
      rintro tail ⟨⟩
      simp at hd
    · rw [hs]
      rfl
  unfold scan
  rw [hsign]
  simp only [integerPart_append n.whole_digits n.whole_zero hfd,
    fraction_append n.fraction_ok hed hep, exponent_append n.exponent_ok hr, bind, Except.bind]
  rw [n.lexeme_eq]
  cases rest with
  | nil => rfl
  | cons c rest =>
    have hc : continues c = false := by simp_all [isContinued]
    simp only [List.head?_cons, hc]
    rfl

/-- What is scanned as a number is a numeral that nothing continues. -/
theorem scan_eq_ok {cs : List Char} {l : Lexeme} {k : Nat} (h : scan cs = .ok (l, k)) :
    ∃ (n : Numeral) (rest : List Char), cs = n.text ++ rest ∧ isContinued rest = false ∧
      l = n.lexeme ∧ k = n.text.length := by
  unfold scan at h
  obtain ⟨hs, hcs⟩ := sign_eq cs
  cases hw : integerPart (sign cs).2 with
  | error problem => simp [hw, bind, Except.bind] at h
  | ok whole =>
  cases hf : fraction whole.2 with
  | error problem => simp [hw, hf, bind, Except.bind] at h
  | ok fraction =>
  cases he : exponent fraction.2 with
  | error problem => simp [hw, hf, he, bind, Except.bind] at h
  | ok exponent =>
  obtain ⟨hwd, hwz, hwr, hdigit⟩ := integerPart_eq_ok hw
  obtain ⟨hfp, hfr, hfd⟩ := fraction_eq_ok hf
  obtain ⟨hep, her, hed⟩ := exponent_eq_ok he
  let n : Numeral := ⟨(sign cs).1, whole.1, fraction.1, exponent.1, hs, hwd, hwz, hfp, hep⟩
  have htext : cs = n.text ++ exponent.2 := by
    simp only [n, Numeral.text, List.append_assoc, ← her, ← hfr, ← hwr, ← hcs]
  simp only [hw, hf, he, bind, Except.bind] at h
  refine ⟨n, exponent.2, htext, ?_⟩
  have hd := hed (hfd hdigit)
  cases hr : exponent.2 with
  | nil =>
    simp only [hr, List.head?_nil] at h
    cases h
    exact ⟨rfl, n.lexeme_eq.symm, rfl⟩
  | cons c rest =>
    by_cases hc : continues c = true
    · simp [hr, hc, throw, throwThe, MonadExceptOf.throw] at h
    · simp only [hr, List.head?_cons, hc] at h
      cases h
      rw [hr] at hd
      exact ⟨by simpa [isContinued, hc] using hd, n.lexeme_eq.symm, rfl⟩

end Number

end Safelist.Lexical
