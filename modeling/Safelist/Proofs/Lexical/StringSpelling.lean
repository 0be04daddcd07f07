import Mathlib.Data.List.Basic
import Safelist.Proofs.Lexical.Stepping

/-!
# Every spelling of a string is read as that string

Between double quotes a character may stand for itself, or be written by a short
escape, by the four digits of its code in either case, or by the codes of its two
surrogates. However its characters are spelled, a string is read back as it is. A
literal that is not closed on its line, or that holds an escape of any other form, is
refused at its opening quote, and there is no third kind of literal.
-/

namespace Safelist

namespace Text.Hex

/-- Four digits, each of either case, that denote a number. -/
def IsCode (ds : List Char) (n : Nat) : Prop := n < 65536 ∧ ds.map Char.toLower = four n

/-- A fact about the first characters that can be checked one by one. -/
theorem forall_char_lt {b : Nat} {P : Char → Prop} (h : ∀ n < b, P (Char.ofNat n)) :
    ∀ c : Char, c.toNat < b → P c := by
  intro c hc
  have hp := h c.toNat hc
  rwa [Char.ofNat_toNat] at hp

theorem digit_congr {m n : Nat} (h : m % 16 = n % 16) : digit m = digit n := by
  unfold digit
  rw [h]

/-- Digits are ASCII characters. -/
theorem value?_eq_none {c : Char} (h : 128 ≤ c.toNat) : value? c = none := by
  have hgt : ∀ d : Char, d.toNat < 128 → ¬c ≤ d := by
    intro d hd hle
    have hnat : c.toNat ≤ d.toNat := hle
    omega
  unfold value?
  rw [if_neg fun hc => hgt '9' (by decide) hc.2, if_neg fun hc => hgt 'f' (by decide) hc.2,
    if_neg fun hc => hgt 'F' (by decide) hc.2]

theorem value?_toLower (c : Char) : value? c.toLower = value? c := by
  by_cases hc : c.toNat < 128
  · exact forall_char_lt (b := 128) (P := fun c => value? c.toLower = value? c) (by decide) c hc
  · have hlower : c.toLower = c := by
      unfold Char.toLower
      refine dif_neg fun hupper => hc ?_
      have hle : c.toNat ≤ 90 := hupper.2
      omega
    rw [hlower]

/-- A character has the value of the digit that it is in lower case. -/
theorem value?_eq_some_iff {c : Char} {v : Nat} :
    value? c = some v ↔ v < 16 ∧ c.toLower = digit v := by
  constructor
  · intro h
    by_cases hc : c.toNat < 128
    · have hall : ∀ v ∈ value? c, v < 16 ∧ c.toLower = digit v :=
        forall_char_lt (b := 128) (P := fun c => ∀ v ∈ value? c, v < 16 ∧ c.toLower = digit v)
          (by decide) c hc
      exact hall v h
    · rw [value?_eq_none (by omega)] at h
      cases h
  · intro h
    rw [← value?_toLower, h.2, value?_digit, Nat.mod_eq_of_lt h.1]

/-- What is read as a code is four digits that denote it. -/
theorem four?_eq_some_iff {cs rest : List Char} {n : Nat} :
    four? cs = some (n, rest) ↔ ∃ ds, cs = ds ++ rest ∧ IsCode ds n := by
  constructor
  · intro h
    unfold four? at h
    split at h
    · rename_i a b c d tail
      simp only [Option.bind_eq_bind, Option.bind_eq_some_iff, Option.pure_def,
        Option.some.injEq, Prod.mk.injEq] at h
      obtain ⟨va, ha, vb, hb, vc, hc, vd, hd, hn, rfl⟩ := h
      have hva := value?_eq_some_iff.mp ha
      have hvb := value?_eq_some_iff.mp hb
      have hvc := value?_eq_some_iff.mp hc
      have hvd := value?_eq_some_iff.mp hd
      refine ⟨[a, b, c, d], rfl, by omega, ?_⟩
      simp only [List.map_cons, List.map_nil, four, hva.2, hvb.2, hvc.2, hvd.2]
      rw [digit_congr (m := va) (n := n / 4096) (by omega),
        digit_congr (m := vb) (n := n / 256) (by omega),
        digit_congr (m := vc) (n := n / 16) (by omega),
        digit_congr (m := vd) (n := n) (by omega)]
    · cases h
  · rintro ⟨ds, rfl, hlt, hds⟩
    obtain ⟨a, b, c, d, rfl⟩ : ∃ a b c d, ds = [a, b, c, d] := by
      have hlength : ds.length = 4 := by
        rw [← List.length_map Char.toLower, hds, length_four]
      exact List.length_eq_four.mp hlength
    simp only [List.map_cons, List.map_nil, four, List.cons.injEq, and_true] at hds
    have hvalue : ∀ {c : Char} {m : Nat}, c.toLower = digit m → value? c = some (m % 16) :=
      fun {c m} h => value?_eq_some_iff.mpr
        ⟨Nat.mod_lt _ (by decide), h.trans (digit_congr (Nat.mod_mod _ _).symm)⟩
    simp only [List.cons_append, List.nil_append, four?, hvalue hds.1, hvalue hds.2.1,
      hvalue hds.2.2.1, hvalue hds.2.2.2, Option.bind_eq_bind, Option.bind_some, Option.pure_def,
      Option.some.injEq, Prod.mk.injEq, and_true]
    omega

/-- Four written digits are a code. -/
theorem isCode_four {n : Nat} (h : n < 65536) : IsCode (four n) n := by
  obtain ⟨ds, hds, hcode⟩ := four?_eq_some_iff.mp (four?_four n h [])
  rwa [List.append_cancel_right hds]

theorem IsCode.length {ds : List Char} {n : Nat} (h : IsCode ds n) : ds.length = 4 := by
  rw [← List.length_map Char.toLower, h.2, length_four]

/-- Every character of a code is a digit. -/
theorem IsCode.isSome_value? {ds : List Char} {n : Nat} (h : IsCode ds n) {c : Char}
    (hc : c ∈ ds) : (value? c).isSome = true := by
  have hmem : c.toLower ∈ four n := h.2 ▸ List.mem_map_of_mem hc
  have hdigit : ∃ m, c.toLower = digit m := by
    simp only [four, List.mem_cons, List.not_mem_nil, or_false] at hmem
    rcases hmem with h | h | h | h <;> exact ⟨_, h⟩
  obtain ⟨m, hm⟩ := hdigit
  rw [← value?_toLower, hm, value?_digit]
  rfl

/-- Four digits stand at the beginning of a text, or they do not. -/
theorem four?_eq_none_iff {cs : List Char} :
    four? cs = none ↔ ∀ ds n rest, cs = ds ++ rest → ¬IsCode ds n := by
  constructor
  · intro h ds n rest hcs hds
    rw [four?_eq_some_iff.mpr ⟨ds, hcs, hds⟩] at h
    cases h
  · intro h
    cases hf : four? cs with
    | none => rfl
    | some found =>
      obtain ⟨ds, hcs, hds⟩ := four?_eq_some_iff.mp hf
      exact absurd hds (h ds _ _ hcs)

end Text.Hex

namespace Lexical.Quoted

open Text

/-- The letters of the short escapes with the characters they stand for. -/
def shortEscapes : List (Char × Char) :=
  [('"', '"'), ('\\', '\\'), ('/', '/'), ('b', '\x08'), ('f', '\x0c'), ('n', '\n'), ('r', '\r'),
    ('t', '\t')]

/-- The first surrogate of a character outside the first plane. -/
def leadingHalf (c : Char) : Nat := 0xd800 + (c.toNat - 0x10000) / 0x400

/-- The second surrogate of a character outside the first plane. -/
def trailingHalf (c : Char) : Nat := 0xdc00 + (c.toNat - 0x10000) % 0x400

/-- The spellings of a character between double quotes. -/
inductive CharSpelled : List Char → Char → Prop
  /-- The character stands for itself. -/
  | raw {c : Char} (hquote : c ≠ '"') (hback : c ≠ '\\') (hfeed : c ≠ '\n') (hreturn : c ≠ '\r') :
      CharSpelled [c] c
  /-- A letter stands for it. -/
  | short {letter c : Char} (h : (letter, c) ∈ shortEscapes) : CharSpelled ['\\', letter] c
  /-- Its code stands for it. -/
  | code {ds : List Char} {c : Char} (h : Hex.IsCode ds c.toNat) : CharSpelled ('\\' :: 'u' :: ds) c
  /-- The codes of its surrogates stand for it. -/
  | pair {ds ds' : List Char} {c : Char} (hc : 0x10000 ≤ c.toNat)
      (h : Hex.IsCode ds (leadingHalf c)) (h' : Hex.IsCode ds' (trailingHalf c)) :
      CharSpelled ('\\' :: 'u' :: (ds ++ '\\' :: 'u' :: ds')) c

/-- The spellings of a text between double quotes. -/
inductive Spelled : List Char → List Char → Prop
  /-- Nothing spells the empty text. -/
  | nil : Spelled [] []
  /-- A character is spelled before the others. -/
  | cons {part body text : List Char} {c : Char} (hc : CharSpelled part c) (h : Spelled body text) :
      Spelled (part ++ body) (c :: text)

/-- Texts at which a string breaks off: what stands there ends the text or the line, or is an
escape that stands for no character. -/
inductive Breaks : List Char → Problem → Prop
  /-- The text ends. -/
  | unclosed : Breaks [] .unterminatedString
  /-- The line ends. -/
  | lineEnd {c : Char} {rest : List Char} (h : c = '\n' ∨ c = '\r') :
      Breaks (c :: rest) .unterminatedString
  /-- No escape has this letter, or no letter stands there. -/
  | unknown {cs : List Char} (h : ∀ c ∈ cs.head?, c ≠ 'u' ∧ c ∉ shortEscapes.map Prod.fst) :
      Breaks ('\\' :: cs) (.unknownEscape cs.head?)
  /-- A code has fewer than four digits. -/
  | truncated {cs : List Char} (h : ∀ ds n rest, cs = ds ++ rest → ¬Hex.IsCode ds n) :
      Breaks ('\\' :: 'u' :: cs) .badCodeEscape
  /-- A second surrogate comes first. -/
  | misordered {ds rest : List Char} {n : Nat} (h : Hex.IsCode ds n) (hn : isTrailing n = true) :
      Breaks ('\\' :: 'u' :: (ds ++ rest)) .badCodeEscape
  /-- A first surrogate comes without another code behind it. -/
  | unpaired {ds rest : List Char} {n : Nat} (h : Hex.IsCode ds n) (hn : isLeading n = true)
      (hrest : ¬['\\', 'u'] <+: rest) : Breaks ('\\' :: 'u' :: (ds ++ rest)) .unpairedSurrogate
  /-- The code behind a first surrogate has fewer than four digits. -/
  | halved {ds rest : List Char} {n : Nat} (h : Hex.IsCode ds n) (hn : isLeading n = true)
      (hrest : ∀ ds' n' rest', rest = ds' ++ rest' → ¬Hex.IsCode ds' n') :
      Breaks ('\\' :: 'u' :: (ds ++ '\\' :: 'u' :: rest)) .badCodeEscape
  /-- The code behind a first surrogate is no second one. -/
  | mispaired {ds ds' rest : List Char} {n n' : Nat} (h : Hex.IsCode ds n)
      (hn : isLeading n = true) (h' : Hex.IsCode ds' n') (hn' : isTrailing n' = false) :
      Breaks ('\\' :: 'u' :: (ds ++ '\\' :: 'u' :: (ds' ++ rest))) .unpairedSurrogate

section Halves

/-- A code of four digits that is no surrogate is that of a character. -/
theorem exists_toNat_of_not_surrogate {n : Nat} (hlt : n < 65536) (hl : isLeading n = false)
    (ht : isTrailing n = false) : ∃ c : Char, c.toNat = n := by
  simp only [isLeading, isTrailing, Bool.and_eq_false_iff, decide_eq_false_iff_not] at hl ht
  have hvalid : n.isValidChar := by
    unfold Nat.isValidChar
    omega
  exact ⟨.ofNatAux n hvalid, rfl⟩

/-- No surrogate is both a first and a second one. -/
theorem not_isLeading_of_isTrailing {n : Nat} (h : isTrailing n = true) : isLeading n = false := by
  simp only [isTrailing, Bool.and_eq_true, decide_eq_true_eq] at h
  simp only [isLeading, Bool.and_eq_false_iff, decide_eq_false_iff_not]
  omega

/-- The code of a character is no surrogate. -/
theorem not_surrogate (c : Char) : isLeading c.toNat = false ∧ isTrailing c.toNat = false := by
  have hvalid : c.toNat < 0xd800 ∨ 0xdfff < c.toNat ∧ c.toNat < 0x110000 := c.valid
  simp only [isLeading, isTrailing, Bool.and_eq_false_iff, decide_eq_false_iff_not]
  omega

/-- The surrogates of a character are joined to it again. -/
theorem joinSurrogates_halves {c : Char} (hc : 0x10000 ≤ c.toNat) :
    isLeading (leadingHalf c) = true ∧ isTrailing (trailingHalf c) = true ∧
      joinSurrogates (leadingHalf c) (trailingHalf c) = c := by
  have hvalid : c.toNat < 0xd800 ∨ 0xdfff < c.toNat ∧ c.toNat < 0x110000 := c.valid
  have hl : 0xd800 ≤ leadingHalf c ∧ leadingHalf c < 0xdc00 := by
    unfold leadingHalf
    omega
  have ht : 0xdc00 ≤ trailingHalf c ∧ trailingHalf c < 0xe000 := by
    unfold trailingHalf
    omega
  have hsum : 0x10000 + (leadingHalf c - 0xd800) * 0x400 + (trailingHalf c - 0xdc00) =
      c.toNat := by
    unfold leadingHalf trailingHalf
    omega
  refine ⟨by simp [isLeading, hl], by simp [isTrailing, ht], ?_⟩
  rw [joinSurrogates, hsum, Char.ofNat_toNat]

/-- Two surrogates are those of the character that they are joined to. -/
theorem halves_joinSurrogates {m n : Nat} (hm : isLeading m = true) (hn : isTrailing n = true) :
    0x10000 ≤ (joinSurrogates m n).toNat ∧ leadingHalf (joinSurrogates m n) = m ∧
      trailingHalf (joinSurrogates m n) = n := by
  simp only [isLeading, isTrailing, Bool.and_eq_true, decide_eq_true_eq] at hm hn
  have hvalid : (0x10000 + (m - 0xd800) * 0x400 + (n - 0xdc00)).isValidChar := by
    unfold Nat.isValidChar
    omega
  obtain ⟨c, hc⟩ : ∃ c : Char, c.toNat = 0x10000 + (m - 0xd800) * 0x400 + (n - 0xdc00) :=
    ⟨.ofNatAux _ hvalid, rfl⟩
  have hcode : (joinSurrogates m n).toNat = 0x10000 + (m - 0xd800) * 0x400 + (n - 0xdc00) := by
    rw [joinSurrogates, ← hc, Char.ofNat_toNat]
  rw [leadingHalf, trailingHalf, hcode]
  omega

end Halves

section Escapes

variable {cs rest part : List Char} {c : Char} {n : Nat} {problem : Problem}

/-- The code of a character is read as that character. -/
theorem codeEscape_code {ds : List Char} (h : Hex.IsCode ds c.toNat) (rest : List Char) :
    codeEscape (ds ++ rest) = .ok (c, 4) := by
  have hnone := not_surrogate c
  rw [codeEscape, Hex.four?_eq_some_iff.mpr ⟨ds, rfl, h⟩]
  simp [hnone.1, hnone.2, Char.ofNat_toNat]

/-- The codes of two surrogates are read as the character that they are joined to. -/
theorem codeEscape_pair {ds ds' : List Char} (hc : 0x10000 ≤ c.toNat)
    (h : Hex.IsCode ds (leadingHalf c)) (h' : Hex.IsCode ds' (trailingHalf c))
    (rest : List Char) : codeEscape (ds ++ '\\' :: 'u' :: (ds' ++ rest)) = .ok (c, 10) := by
  have hhalves := joinSurrogates_halves hc
  rw [codeEscape, Hex.four?_eq_some_iff.mpr ⟨ds, rfl, h⟩]
  simp [hhalves, Hex.four?_eq_some_iff.mpr ⟨ds', rfl, h'⟩]

/-- What is read as a code escape spells the character. -/
theorem codeEscape_eq_ok (h : codeEscape cs = .ok (c, n)) : ∃ part rest, cs = part ++ rest ∧
    part.length = n ∧ CharSpelled ('\\' :: 'u' :: part) c := by
  unfold codeEscape at h
  split at h
  · cases h
  · rename_i code tail hcode
    obtain ⟨ds, rfl, hds⟩ := Hex.four?_eq_some_iff.mp hcode
    split at h
    · rename_i hlead
      split at h
      · rename_i tail
        split at h
        · cases h
        · rename_i low tail hlow
          obtain ⟨ds', rfl, hds'⟩ := Hex.four?_eq_some_iff.mp hlow
          split at h
          · rename_i htrail
            simp only [Except.ok.injEq, Prod.mk.injEq] at h
            obtain ⟨rfl, rfl⟩ := h
            have hhalves := halves_joinSurrogates hlead htrail
            refine ⟨ds ++ '\\' :: 'u' :: ds', tail, by simp, by simp [hds.length, hds'.length], ?_⟩
            exact .pair hhalves.1 (hhalves.2.1.symm ▸ hds) (hhalves.2.2.symm ▸ hds')
          · cases h
      · cases h
    · rename_i hlead
      split at h
      · cases h
      · rename_i htrail
        cases h
        obtain ⟨c, rfl⟩ := exists_toNat_of_not_surrogate hds.1 (by simpa using hlead)
          (by simpa using htrail)
        rw [Char.ofNat_toNat]
        exact ⟨ds, tail, rfl, hds.length, .code hds⟩

/-- Where no code escape is read, none stands. -/
theorem breaks_of_codeEscape (h : codeEscape cs = .error problem) :
    Breaks ('\\' :: 'u' :: cs) problem := by
  unfold codeEscape at h
  split at h
  · rename_i hnone
    cases h
    exact .truncated (Hex.four?_eq_none_iff.mp hnone)
  · rename_i code tail hcode
    obtain ⟨ds, rfl, hds⟩ := Hex.four?_eq_some_iff.mp hcode
    split at h
    · rename_i hlead
      split at h
      · rename_i tail
        split at h
        · rename_i hnone
          cases h
          exact .halved hds hlead (Hex.four?_eq_none_iff.mp hnone)
        · rename_i low tail hlow
          obtain ⟨ds', rfl, hds'⟩ := Hex.four?_eq_some_iff.mp hlow
          split at h
          · cases h
          · rename_i htrail
            cases h
            exact .mispaired hds hlead hds' (by simpa using htrail)
      · rename_i hother
        cases h
        refine .unpaired hds hlead ?_
        rintro ⟨behind, rfl⟩
        exact hother behind rfl
    · split at h
      · rename_i htrail
        cases h
        exact .misordered hds htrail
      · cases h

/-- An escape is read as the character that it spells. -/
theorem escape_append (h : CharSpelled ('\\' :: part) c) (rest : List Char) :
    escape (part ++ rest) = .ok (c, part.length) := by
  cases h with
  | raw hquote hback => exact absurd rfl hback
  | short hmem =>
    simp only [shortEscapes, List.mem_cons, Prod.mk.injEq, List.not_mem_nil, or_false] at hmem
    obtain ⟨rfl, rfl⟩ | ⟨rfl, rfl⟩ | ⟨rfl, rfl⟩ | ⟨rfl, rfl⟩ | ⟨rfl, rfl⟩ | ⟨rfl, rfl⟩ |
      ⟨rfl, rfl⟩ | ⟨rfl, rfl⟩ := hmem <;> rfl
  | code hds =>
    rw [List.cons_append, escape, codeEscape_code hds]
    simp [Except.map, hds.length]
  | pair hc hds hds' =>
    rw [List.cons_append, List.append_assoc, List.cons_append, List.cons_append, escape,
      codeEscape_pair hc hds hds']
    simp [Except.map, hds.length, hds'.length]

/-- What is read as an escape spells the character. -/
theorem escape_eq_ok (h : escape cs = .ok (c, n)) : ∃ part rest, cs = part ++ rest ∧
    part.length = n ∧ CharSpelled ('\\' :: part) c := by
  unfold escape at h
  split at h
  case h_9 tail =>
    cases hcode : codeEscape tail with
    | error problem => simp [hcode, Except.map] at h
    | ok found =>
      obtain ⟨part, rest, rfl, hlength, hc⟩ := codeEscape_eq_ok hcode
      simp only [hcode, Except.map, Except.ok.injEq, Prod.mk.injEq] at h
      obtain ⟨rfl, rfl⟩ := h
      exact ⟨'u' :: part, rest, rfl, by simp [hlength], hc⟩
  case h_10 => cases h
  all_goals
    cases h
    exact ⟨[_], _, rfl, rfl, .short (by decide)⟩

/-- Where no escape is read, none stands. -/
theorem breaks_of_escape (h : escape cs = .error problem) : Breaks ('\\' :: cs) problem := by
  unfold escape at h
  split at h
  case h_9 tail =>
    cases hcode : codeEscape tail with
    | error problem =>
      simp only [hcode, Except.map, Except.error.injEq] at h
      exact h ▸ breaks_of_codeEscape hcode
    | ok found => simp [hcode, Except.map] at h
  case h_10 hquote hback hslash hb hf hn hr ht hu =>
    cases h
    refine .unknown fun letter hletter => ?_
    obtain ⟨tail, rfl⟩ := List.head?_eq_some_iff.mp hletter
    refine ⟨fun he => hu tail (he ▸ rfl), fun he => ?_⟩
    simp only [shortEscapes, List.map_cons, List.map_nil, List.mem_cons, List.not_mem_nil,
      or_false] at he
    rcases he with rfl | rfl | rfl | rfl | rfl | rfl | rfl | rfl
    · exact hquote tail rfl
    · exact hback tail rfl
    · exact hslash tail rfl
    · exact hb tail rfl
    · exact hf tail rfl
    · exact hn tail rfl
    · exact hr tail rfl
    · exact ht tail rfl
  all_goals cases h

/-- Where none of the codes stands that an escape may have, none is read. -/
theorem codeEscape_of_breaks (h : Breaks ('\\' :: 'u' :: cs) problem) :
    codeEscape cs = .error problem := by
  cases h with
  | lineEnd h => simp at h
  | unknown h => exact absurd rfl (h 'u' rfl).1
  | truncated h => rw [codeEscape, Hex.four?_eq_none_iff.mpr h]
  | misordered hds htrail =>
    have hlead : isLeading _ = false := not_isLeading_of_isTrailing htrail
    rw [codeEscape, Hex.four?_eq_some_iff.mpr ⟨_, rfl, hds⟩]
    simp [hlead, htrail]
  | @unpaired ds rest code hds hlead hrest =>
    rw [codeEscape, Hex.four?_eq_some_iff.mpr ⟨_, rfl, hds⟩]
    simp only [hlead, if_true]
    split
    · rename_i tail
      exact absurd ⟨tail, rfl⟩ hrest
    · rfl
  | halved hds hlead hrest =>
    rw [codeEscape, Hex.four?_eq_some_iff.mpr ⟨_, rfl, hds⟩]
    simp [hlead, Hex.four?_eq_none_iff.mpr hrest]
  | mispaired hds hlead hds' htrail =>
    rw [codeEscape, Hex.four?_eq_some_iff.mpr ⟨_, rfl, hds⟩]
    simp [hlead, Hex.four?_eq_some_iff.mpr ⟨_, rfl, hds'⟩, htrail]

/-- Where no escape stands, none is read. -/
theorem escape_of_breaks (h : Breaks ('\\' :: cs) problem) : escape cs = .error problem := by
  have hcode : ∀ tail, cs = 'u' :: tail → escape cs = .error problem := by
    rintro tail rfl
    rw [escape, codeEscape_of_breaks h]
    rfl
  cases h with
  | lineEnd h => simp at h
  | unknown h =>
    unfold escape
    split
    case h_10 => rfl
    case h_9 => exact absurd rfl (h 'u' rfl).1
    all_goals exact absurd (by decide) (h _ rfl).2
  | _ => exact hcode _ rfl

end Escapes

section Bodies

variable {cs spelling part rest text : List Char} {c : Char} {n : Nat} {problem : Problem}

/-- An escape contributes its character, and reading goes on behind it. -/
theorem body_escape (h : escape cs = .ok (c, n)) :
    body ('\\' :: cs) = (body (cs.drop n)).map fun (text, m) => (c :: text, m + n + 1) := by
  rw [body]
  simp [h, Nat.add_comm n]

/-- A character that stands for itself is read as it is. -/
theorem body_plain (hq : c ≠ '"') (hb : c ≠ '\\') (hn : c ≠ '\n') (hr : c ≠ '\r')
    (cs : List Char) : body (c :: cs) = (body cs).map fun (text, m) => (c :: text, m + 1) := by
  rw [body]
  simp [hq, hb, hn, hr]

/-- A spelled character is read as it is, and reading goes on behind it. -/
theorem body_charSpelled (h : CharSpelled part c) (rest : List Char) :
    body (part ++ rest) = (body rest).map fun (text, m) => (c :: text, m + part.length) := by
  have hescape : ∀ more, part = '\\' :: more →
      body (part ++ rest) = (body rest).map fun (text, m) => (c :: text, m + part.length) := by
    rintro more rfl
    rw [List.cons_append, body_escape (escape_append h rest), List.drop_left]
    rfl
  cases h with
  | raw hquote hback hfeed hreturn =>
    exact body_plain hquote hback hfeed hreturn rest
  | short | code | pair => exact hescape _ rfl

/-- A spelled text is read as it is, and reading goes on behind it. -/
theorem body_spelled (h : Spelled spelling text) (rest : List Char) :
    body (spelling ++ rest) =
      (body rest).map fun (more, m) => (text ++ more, m + spelling.length) := by
  induction h with
  | nil =>
    rw [List.nil_append]
    cases body rest <;> rfl
  | cons hc _ ih =>
    rw [List.append_assoc, body_charSpelled hc, ih]
    cases body rest with
    | error problem => rfl
    | ok found =>
      simp only [Except.map, List.cons_append, List.length_append, Except.ok.injEq, Prod.mk.injEq,
        true_and]
      omega

/-- A spelled text is read up to the quote that closes it. -/
theorem body_closed (h : Spelled spelling text) (rest : List Char) :
    body (spelling ++ '"' :: rest) = .ok (text, spelling.length + 1) := by
  have hclose : body ('"' :: rest) = .ok ([], 1) := by simp [body]
  rw [body_spelled h, hclose]
  simp [Except.map, Nat.add_comm]

/-- A text that breaks off is not read. -/
theorem body_broken {bad : List Char} (h : Spelled spelling text) (hbad : Breaks bad problem) :
    body (spelling ++ bad) = .error problem := by
  have hnone : body bad = .error problem := by
    have hescape : ∀ cs, bad = '\\' :: cs → body bad = .error problem := by
      rintro cs rfl
      rw [body]
      simp [escape_of_breaks hbad]
    cases hbad with
    | unclosed => simp [body]
    | lineEnd h =>
      rw [body]
      rcases h with rfl | rfl <;> simp
    | _ => exact hescape _ rfl
  rw [body_spelled h, hnone]
  rfl

/-- What may stand behind an opening quote. -/
inductive Ends : List Char → Prop
  /-- A text is spelled up to the quote that closes it. -/
  | closed {spelling text : List Char} (h : Spelled spelling text) (rest : List Char) :
      Ends (spelling ++ '"' :: rest)
  /-- A spelled beginning breaks off. -/
  | broken {spelling text bad : List Char} {problem : Problem} (h : Spelled spelling text)
      (hbad : Breaks bad problem) : Ends (spelling ++ bad)

/-- A spelled character in front changes nothing about the end. -/
theorem Ends.cons (hc : CharSpelled part c) (h : Ends rest) : Ends (part ++ rest) := by
  cases h with
  | closed h rest =>
    rw [← List.append_assoc]
    exact .closed (.cons hc h) rest
  | broken h hbad =>
    rw [← List.append_assoc]
    exact .broken (.cons hc h) hbad

/-- Nothing else stands behind an opening quote. -/
theorem ends (cs : List Char) : Ends cs := by
  fun_induction body cs with
  | case1 => exact .broken .nil .unclosed
  | case2 rest => exact .closed .nil rest
  | case3 c rest hquote hend =>
    have hline : c = '\n' ∨ c = '\r' := by simpa using hend
    exact .broken .nil (.lineEnd hline)
  | case4 rest problem hescape => exact .broken .nil (breaks_of_escape hescape)
  | case5 rest c n hescape _ _ ih =>
    obtain ⟨part, behind, rfl, hlength, hc⟩ := escape_eq_ok hescape
    rw [← hlength, List.drop_left] at ih
    exact ih.cons hc
  | case6 c rest hquote hend hback ih =>
    have hraw : CharSpelled [c] c := by
      simp only [Bool.or_eq_true, decide_eq_true_eq, not_or] at hend
      exact .raw hquote hback hend.1 hend.2
    exact ih.cons hraw

/-- No line ends inside a spelled character. -/
theorem CharSpelled.not_isLineEnd (h : CharSpelled part c) :
    ∀ d ∈ part, Lexer.isLineEnd d = false := by
  have hcode : ∀ {ds : List Char} {n : Nat}, Hex.IsCode ds n →
      ∀ d ∈ ds, Lexer.isLineEnd d = false := by
    intro ds n hds d hd
    have hdigit := hds.isSome_value? hd
    cases hend : Lexer.isLineEnd d with
    | false => rfl
    | true =>
      have hcases : d = '\n' ∨ d = '\r' := by simpa [Lexer.isLineEnd] using hend
      rcases hcases with rfl | rfl <;> revert hdigit <;> decide
  cases h with
  | raw hquote hback hfeed hreturn => simp [Lexer.isLineEnd, hfeed, hreturn]
  | short hmem =>
    simp only [shortEscapes, List.mem_cons, Prod.mk.injEq, List.not_mem_nil, or_false] at hmem
    rcases hmem with ⟨rfl, rfl⟩ | ⟨rfl, rfl⟩ | ⟨rfl, rfl⟩ | ⟨rfl, rfl⟩ | ⟨rfl, rfl⟩ |
      ⟨rfl, rfl⟩ | ⟨rfl, rfl⟩ | ⟨rfl, rfl⟩ <;> simp [Lexer.isLineEnd]
  | code hds =>
    exact List.forall_mem_cons.mpr ⟨by decide, List.forall_mem_cons.mpr ⟨by decide, hcode hds⟩⟩
  | pair hc hds hds' =>
    have hsecond : ∀ d ∈ '\\' :: 'u' :: _, Lexer.isLineEnd d = false :=
      List.forall_mem_cons.mpr ⟨by decide, List.forall_mem_cons.mpr ⟨by decide, hcode hds'⟩⟩
    exact List.forall_mem_cons.mpr ⟨by decide, List.forall_mem_cons.mpr ⟨by decide,
      List.forall_mem_append.mpr ⟨hcode hds, hsecond⟩⟩⟩

/-- A spelled text stands on one line. -/
theorem Spelled.not_isLineEnd (h : Spelled spelling text) :
    ∀ d ∈ spelling, Lexer.isLineEnd d = false := by
  induction h with
  | nil => simp
  | cons hc _ ih => exact List.forall_mem_append.mpr ⟨hc.not_isLineEnd, ih⟩

/-- Behind an opening quote, a spelled text does not begin with the quotes of a block string. -/
theorem Spelled.not_block (h : Spelled spelling text) {rest : List Char}
    (hrest : ¬['"', '"'] <+: rest) : ¬['"', '"'] <+: spelling ++ rest := by
  cases h with
  | nil => exact hrest
  | cons hc _ =>
    cases hc with
    | raw hquote => simp [List.cons_prefix_cons, hquote.symm]
    | short | code | pair => simp [List.cons_prefix_cons]

/-- Nor does a text that breaks off. -/
theorem Breaks.not_block {bad : List Char} (h : Breaks bad problem) : ¬['"', '"'] <+: bad := by
  cases h with
  | unclosed => simp
  | lineEnd h => rcases h with rfl | rfl <;> simp [List.cons_prefix_cons]
  | _ => simp [List.cons_prefix_cons]

/-- Where no block string is opened, a plain string is scanned. -/
theorem scan_of_not_block (h : ¬['"', '"'] <+: cs) :
    scan cs = (body cs).map fun (text, n) => (.string (String.ofList text), n) := by
  rw [scan.eq_2]
  rintro tail rfl
  exact h ⟨tail, rfl⟩

end Bodies

end Lexical.Quoted

namespace Lexical.Lexer

open Quoted

/-- A step at a quote that opens no block string reads a plain string. -/
theorem step_quote (p : Position) {rest : List Char} (h : ¬['"', '"'] <+: rest) :
    step p ('"' :: rest) =
      match Quoted.body rest with
      | .error problem => .error (.malformed p problem)
      | .ok (text, n) => .ok (.token ⟨.string (String.ofList text), p⟩
          (p.advance ('"' :: rest) (n + 1)) (rest.drop n)) := by
  have hlexeme : lexeme '"' rest = Quoted.scan rest := rfl
  rw [step_cons (by decide) (by decide), hlexeme, scan_of_not_block h]
  cases Quoted.body rest <;> rfl

/-- A step at the opening quote of a spelled text reads that text. -/
theorem step_spelled (p : Position) {spelling text : List Char} (h : Spelled spelling text)
    {rest : List Char} (hblock : ¬['"', '"'] <+: spelling ++ '"' :: rest) :
    step p ('"' :: (spelling ++ '"' :: rest)) = .ok (.token ⟨.string (String.ofList text), p⟩
      (p.advance ('"' :: (spelling ++ '"' :: rest)) (spelling.length + 2)) rest) := by
  have hdrop : (spelling ++ '"' :: rest).drop (spelling.length + 1) = rest := by
    rw [← List.drop_drop, List.drop_left]
    rfl
  rw [step_quote p hblock, body_closed h]
  simp only [hdrop]

/-- A step at the opening quote of a text that breaks off fails there. -/
theorem step_broken (p : Position) {spelling text bad : List Char} {problem : Problem}
    (h : Spelled spelling text) (hbad : Breaks bad problem) :
    step p ('"' :: (spelling ++ bad)) = .error (.malformed p problem) := by
  rw [step_quote p (h.not_block hbad.not_block), body_broken h hbad]

/-- A string is read as it is however its characters are spelled. A literal that breaks off is
refused at its opening quote, and every literal that is not spelled to its end breaks off. -/
theorem strings_read_as_spelled :
    (∀ spelling text, Spelled spelling text →
      tokenize (String.ofList ('"' :: (spelling ++ ['"']))) =
        .ok ⟨[⟨.string (String.ofList text), .start⟩], ⟨1, spelling.length + 3⟩⟩) ∧
    (∀ p spelling text bad problem, Spelled spelling text → Breaks bad problem →
      scan p ('"' :: (spelling ++ bad)) = .error (.malformed p problem)) ∧
    ∀ p rest, ¬['"', '"'] <+: rest →
      (∃ spelling text after, rest = spelling ++ '"' :: after ∧ Spelled spelling text ∧
        step p ('"' :: rest) = .ok (.token ⟨.string (String.ofList text), p⟩
          (p.advance ('"' :: rest) (spelling.length + 2)) after)) ∨
      ∃ spelling text bad problem, rest = spelling ++ bad ∧ Spelled spelling text ∧
        Breaks bad problem := by
  refine ⟨fun spelling text h => ?_, fun p spelling text bad problem h hbad => ?_,
    fun p rest hblock => ?_⟩
  · have hline : ∀ d ∈ '"' :: (spelling ++ ['"']), isLineEnd d = false :=
      List.forall_mem_cons.mpr ⟨by decide, List.forall_mem_append.mpr
        ⟨h.not_isLineEnd, List.forall_mem_singleton.mpr (by decide)⟩⟩
    have hstop := Position.start.advance_of_line hline []
    rw [List.append_nil] at hstop
    have hlength : ('"' :: (spelling ++ ['"'])).length = spelling.length + 2 := by simp
    have hblock : ¬['"', '"'] <+: spelling ++ ['"'] := h.not_block (by simp)
    rw [tokenize, String.toList_ofList, scan_eq_step, step_spelled _ h hblock]
    rw [hlength] at hstop
    simp only [hstop]
    have hcolumn : 1 + (spelling.length + 2) = spelling.length + 3 := by omega
    rw [scan]
    simp [Except.map, Position.start, hcolumn]
  · rw [scan_eq_step, step_broken p h hbad]
  · cases ends rest with
    | closed h after => exact .inl ⟨_, _, after, rfl, h, step_spelled p h hblock⟩
    | broken h hbad => exact .inr ⟨_, _, _, _, rfl, h, hbad⟩

/-- A letter that stands for itself, one by its code, a line feed by its letter and a character by
its surrogates in mixed case. -/
theorem spelled_mixed :
    Spelled "a\\u00E9\\n\\uD83d\\uDe00".toList "aé\n😀".toList := by
  have hsmall : Text.Hex.IsCode "00E9".toList 'é'.toNat := ⟨by decide, by decide⟩
  have hleading : Text.Hex.IsCode "D83d".toList (leadingHalf '😀') := ⟨by decide, by decide⟩
  have htrailing : Text.Hex.IsCode "De00".toList (trailingHalf '😀') := ⟨by decide, by decide⟩
  have hcode : CharSpelled "\\u00E9".toList 'é' := .code hsmall
  have hpair : CharSpelled "\\uD83d\\uDe00".toList '😀' := .pair (by decide) hleading htrailing
  exact .cons (.raw (by decide) (by decide) (by decide) (by decide))
    (.cons hcode (.cons (.short (by decide)) (.cons hpair .nil)))

/-- Every way of spelling a character in one literal, and surrogates in the wrong order. -/
theorem strings_read_as_spelled_mixed :
    tokenize "\"a\\u00E9\\n\\uD83d\\uDe00\"" = .ok ⟨[⟨.string "aé\n😀", .start⟩], ⟨1, 24⟩⟩ ∧
      scan .start "\"\\uDE00\\uD83D\"".toList = .error (.malformed .start .badCodeEscape) := by
  refine ⟨strings_read_as_spelled.1 _ _ spelled_mixed, ?_⟩
  have hsecond : Text.Hex.IsCode "DE00".toList 0xde00 := ⟨by decide, by decide⟩
  have hbreaks : Breaks "\\uDE00\\uD83D\"".toList .badCodeEscape :=
    .misordered hsecond (by decide)
  exact strings_read_as_spelled.2.1 .start [] [] _ _ .nil hbreaks

end Lexical.Lexer

end Safelist
