import Mathlib.Data.Nat.Digits.Defs
import Safelist.Json.Shape
import Safelist.Proofs.Json.Grammar

/-!
# What scans take

A scan takes some characters in front of a rest when it reads a value from exactly
these. Scans in a row take what stands in a row, so it is enough to say what the
smallest scans take.
-/

namespace Safelist.Json.Scan

open Text Lexical

variable {α β σ : Type} {a : α} {b : β} {cs ds ws rest : List Char} {c : Char}

/-- In front of a rest, a scan takes exactly some characters and reads a value from them. -/
def Takes (scan : Scan α) (cs rest : List Char) (a : α) : Prop :=
  scan (cs ++ rest) = .ok (a, cs.length)

theorem takes_pure (a : α) (rest : List Char) : Takes (pure a) [] rest a := rfl

/-- Scans in a row take what stands in a row. -/
theorem Takes.bind {scan : Scan α} {next : α → Scan β} (h : Takes scan cs (ds ++ rest) a)
    (h' : Takes (next a) ds rest b) : Takes (scan >>= next) (cs ++ ds) rest b := by
  show andThen scan next (cs ++ ds ++ rest) = _
  rw [Takes] at h h'
  rw [andThen, List.append_assoc, h]
  simp only [List.drop_left, h', List.length_append]

/-- What takes nothing may come before a scan. -/
theorem Takes.look {scan : Scan α} {next : α → Scan β} (h : Takes scan [] (ds ++ rest) a)
    (h' : Takes (next a) ds rest b) : Takes (scan >>= next) ds rest b :=
  h.bind h'

/-- What takes nothing may come behind a scan. -/
theorem Takes.finish {scan : Scan α} {next : α → Scan β} (h : Takes scan cs rest a)
    (h' : Takes (next a) [] rest b) : Takes (scan >>= next) cs rest b := by
  have hall := h.bind h'
  rwa [List.append_nil] at hall

theorem Takes.map {scan : Scan α} (f : α → β) (h : Takes scan cs rest a) :
    Takes (f <$> scan) cs rest (f a) :=
  h.finish (takes_pure (f a) rest)

theorem takes_peek (rest : List Char) : Takes peek [] rest rest.head? := rfl

theorem takes_step (c : Char) (rest : List Char) : Takes step [c] rest () := by
  simp [Takes, step]

/-- White space is passed over up to what is none, and what comes then depends on the character
that stands there. -/
theorem Takes.past_spaces {next : Option Char → Scan β} (hws : Blank ws) (hhead : cs.head? = some c)
    (hc : isSpace c = false) (h : Takes (next (some c)) cs rest b) :
    Takes (spaces >>= fun _ => peek >>= next) (ws ++ cs) rest b := by
  have hpeek : (cs ++ rest).head? = some c := by rw [List.head?_append, hhead, Option.some_or]
  have htake : (ws ++ (cs ++ rest)).takeWhile isSpace = ws :=
    takeWhile_append_eq hws (by rw [hpeek, Option.any_some, hc])
  have hspaces : Takes spaces ws (cs ++ rest) () := by simp only [Takes, spaces, htake]
  refine hspaces.bind ((takes_peek _).look ?_)
  rwa [hpeek]

section Texts

/-- An escape contributes its character, and reading goes on behind it. -/
theorem textBody_escape {code : Scan Char} {n : Nat} (h : escape code cs = .ok (c, n)) :
    textBody code ('\\' :: cs) =
      (textBody code (cs.drop n)).map fun (text, m) => (c :: text, m + n + 1) := by
  rw [textBody]
  simp [h, Nat.add_comm n]

/-- A character that stands for itself is read as it is. -/
theorem textBody_plain (code : Scan Char) (hq : c ≠ '"') (hb : c ≠ '\\')
    (hl : Escape.isLowControl c = false) (cs : List Char) :
    textBody code (c :: cs) = (textBody code cs).map fun (text, m) => (c :: text, m + 1) := by
  rw [textBody]
  simp [hq, hb, hl]

/-- The code of four digits is read. -/
theorem takes_codeUnit {n : Nat} (h : Hex.IsCode ds n) (rest : List Char) :
    Takes codeUnit ds rest n := by
  rw [Takes, codeUnit, Hex.four?_eq_some_iff.mpr ⟨ds, rfl, h⟩, h.length]

/-- The code of a character is read as that character. -/
theorem takes_codeEscape_code (h : Hex.IsCode ds c.toNat) (rest : List Char) :
    Takes codeEscape ds rest c := by
  have hnone := Quoted.not_surrogate c
  refine (takes_codeUnit h rest).finish ?_
  rw [hnone.1, hnone.2, Char.ofNat_toNat]
  exact takes_pure c rest

/-- The codes of two surrogates are read as the character that they are joined to. -/
theorem takes_codeEscape_pair {ds' : List Char} (hc : 0x10000 ≤ c.toNat)
    (h : Hex.IsCode ds (Quoted.leadingHalf c)) (h' : Hex.IsCode ds' (Quoted.trailingHalf c))
    (rest : List Char) : Takes codeEscape (ds ++ '\\' :: 'u' :: ds') rest c := by
  obtain ⟨hleading, htrailing, hjoined⟩ := Quoted.joinSurrogates_halves hc
  have hnot : Quoted.isTrailing (Quoted.leadingHalf c) = false := by
    rw [Bool.eq_false_iff]
    intro ht
    rw [Quoted.not_isLeading_of_isTrailing ht] at hleading
    cases hleading
  have hletters : Takes (letters ['\\', 'u']) ['\\', 'u'] (ds' ++ rest) () := rfl
  refine (takes_codeUnit h _).bind ?_
  rw [hnot, hleading]
  refine hletters.bind ((takes_codeUnit h' rest).finish ?_)
  rw [htrailing, hjoined]
  exact takes_pure c rest

/-- An escape is read as the character that it spells. -/
theorem takes_escape (h : Quoted.CharSpelled ('\\' :: cs) c) (rest : List Char) :
    Takes (escape codeEscape) cs rest c := by
  cases h with
  | raw hquote hback => exact absurd rfl hback
  | short hmem =>
    simp only [Quoted.shortEscapes, List.mem_cons, Prod.mk.injEq, List.not_mem_nil, or_false]
      at hmem
    obtain ⟨rfl, rfl⟩ | ⟨rfl, rfl⟩ | ⟨rfl, rfl⟩ | ⟨rfl, rfl⟩ | ⟨rfl, rfl⟩ | ⟨rfl, rfl⟩ |
      ⟨rfl, rfl⟩ | ⟨rfl, rfl⟩ := hmem <;> rfl
  | code hds =>
    have hcode := takes_codeEscape_code hds rest
    rw [Takes] at hcode ⊢
    rw [List.cons_append, escape, hcode]
    rfl
  | pair hc hds hds' =>
    have hcode := takes_codeEscape_pair hc hds hds' rest
    rw [Takes] at hcode ⊢
    rw [List.cons_append, escape, hcode]
    rfl

/-- A spelled character is read, and reading goes on behind it. -/
theorem textBody_charSpelled (h : Quoted.CharSpelled cs c)
    (hlow : ∀ d ∈ cs, Escape.isLowControl d = false) (rest : List Char) :
    textBody codeEscape (cs ++ rest) =
      (textBody codeEscape rest).map fun (text, n) => (c :: text, n + cs.length) := by
  have hescape : ∀ more, cs = '\\' :: more → textBody codeEscape (cs ++ rest) =
      (textBody codeEscape rest).map fun (text, n) => (c :: text, n + cs.length) := by
    rintro more rfl
    rw [List.cons_append, textBody_escape (takes_escape h rest), List.drop_left]
    rfl
  cases h with
  | raw hquote hback =>
    exact textBody_plain _ hquote hback (hlow _ List.mem_cons_self) rest
  | short | code | pair => exact hescape _ rfl

/-- A spelled text is read up to the quote that closes it. -/
theorem textBody_closed {text : List Char} (h : Quoted.Spelled cs text)
    (hlow : ∀ d ∈ cs, Escape.isLowControl d = false) (rest : List Char) :
    textBody codeEscape (cs ++ '"' :: rest) = .ok (text, cs.length + 1) := by
  induction h with
  | nil =>
    rw [List.nil_append, textBody]
    simp
  | cons hc _ ih =>
    obtain ⟨hpart, hbody⟩ := List.forall_mem_append.mp hlow
    rw [List.append_assoc, textBody_charSpelled hc hpart, ih hbody]
    simp only [Except.map, List.length_append, Except.ok.injEq, Prod.mk.injEq, true_and]
    omega

/-- A text is read, its opening quote being read already. -/
theorem takes_text {t : String} (h : Quotes t ('"' :: cs)) (rest : List Char) :
    Takes text cs rest t := by
  cases h with
  | intro hbody hlow =>
    rw [Takes, text, List.append_assoc, List.singleton_append, textBody_closed hbody hlow]
    simp [Except.map]

/-- A text in quotes is read, after white space. -/
theorem takes_string {t : String} (hws : Blank ws) (h : Quotes t cs) (rest : List Char) :
    Takes string (ws ++ cs) rest t := by
  obtain ⟨body, rfl⟩ := h.exists_eq_cons
  exact .past_spaces hws rfl (by decide) ((takes_step '"' _).bind (takes_text h rest))

end Texts

section Numbers

theorem isSpace_of_isDigit (h : c.isDigit = true) : isSpace c = false := by
  rw [Bool.eq_false_iff]
  intro hc
  simp only [isSpace, Bool.or_eq_true, decide_eq_true_eq, or_assoc] at hc
  rcases hc with rfl | rfl | rfl | rfl <;> cases h

/-- The digits of a number do not begin with a zero, unless they are a lone one. -/
theorem head?_toDigits_ne_zero {n : Nat} (h : n ≠ 0) : (Nat.toDigits 10 n).head? ≠ some '0' := by
  induction n using Nat.strongRecOn with
  | ind n ih =>
    by_cases hn : n < 10
    · have hsmall : ∀ d : Fin 10, d.val ≠ 0 → Nat.digitChar d.val ≠ '0' := by decide
      rw [Nat.toDigits_of_lt_base hn]
      simpa using hsmall ⟨n, hn⟩ h
    · have hshorter := ih (n / 10) (by omega) (by omega)
      rw [Nat.toDigits_of_base_le (by decide) (by omega), List.head?_append]
      cases hd : (Nat.toDigits 10 (n / 10)).head? with
      | none => exact absurd (List.head?_eq_none_iff.mp hd) Nat.toDigits_ne_nil
      | some c => simpa [hd] using hshorter

theorem decimal_toDigits (n : Nat) : Number.decimal (Nat.toDigits 10 n) = n := by
  have hfold : ∀ (ds : List Char) (m : Nat), ds.foldl Number.push m = Nat.ofDigitChars 10 ds m := by
    intro ds m
    rw [Nat.ofDigitChars_eq_foldl]
    congr 1
    funext k c
    simp [Number.push, Nat.mul_comm]
  rw [Number.decimal, hfold, Nat.ofDigitChars_ten_toDigits]

theorem takes_digits (n : Nat) (h : EndsNumber rest) (atEnd : Fault) :
    Takes (digits atEnd) (Nat.toDigits 10 n) rest (Nat.toDigits 10 n) := by
  rw [Takes, digits, takeWhile_isDigit_toDigits h]
  split
  · rename_i hnil
    exact absurd hnil Nat.toDigits_ne_nil
  · rfl

theorem takes_wholePart (n : Nat) (h : EndsNumber rest) (atEnd : Fault) :
    Takes (wholePart atEnd) (Nat.toDigits 10 n) rest (Nat.toDigits 10 n) := by
  refine (takes_digits n h atEnd).finish ?_
  split
  · rename_i d ds hds
    by_cases hn : n = 0
    · rw [hn] at hds
      cases hds
    · have hhead := head?_toDigits_ne_zero hn
      rw [hds] at hhead
      exact absurd rfl hhead
  · exact takes_pure _ rest

/-- A natural number is read as it is written. -/
theorem takes_literal (n : Nat) (h : EndsNumber rest) (atEnd : Fault) :
    Takes (literal atEnd) (Nat.toDigits 10 n) rest ⟨false, Nat.toDigits 10 n, none, none⟩ := by
  have hminus : (Nat.toDigits 10 n ++ rest).head? ≠ some '-' := by
    obtain ⟨c, cs, hcs, hc⟩ := exists_toDigits_eq_cons n
    rw [hcs]
    rintro ⟨⟩
    cases hc
  have hfraction : Takes (fractionPart atEnd) [] rest none := by
    refine (takes_peek rest).look ?_
    rw [if_neg fun hc => (h _ hc).2.1 rfl]
    exact takes_pure none rest
  have hexponent : Takes (exponentPart atEnd) [] rest none := by
    refine (takes_peek rest).look ?_
    split
    · rename_i hc
      exact absurd rfl (h _ hc).2.2.1
    · rename_i hc
      exact absurd rfl (h _ hc).2.2.2
    · exact takes_pure none rest
  refine (takes_peek _).look ?_
  rw [if_neg hminus]
  refine (takes_pure false _).look ?_
  exact (takes_wholePart n h atEnd).finish
    (hfraction.finish (hexponent.finish (takes_pure _ rest)))

theorem le_foldl_push (ds : List Char) (m : Nat) : m ≤ ds.foldl Number.push m := by
  induction ds generalizing m with
  | nil => exact Nat.le_refl m
  | cons d ds ih =>
    have hpush : m ≤ Number.push m d := by
      unfold Number.push
      omega
    exact hpush.trans (ih _)

/-- Digits that fit into sixty-four bits are all taken. -/
theorem fill_eq_of_lt {ds : List Char} {m : Nat} (h : ds.foldl Number.push m < UInt64.size) :
    Number.fill m ds = (ds.foldl Number.push m, []) := by
  induction ds generalizing m with
  | nil => rfl
  | cons d ds ih =>
    have hpush : Number.push m d < UInt64.size := (le_foldl_push ds _).trans_lt h
    rw [Number.fill, if_pos hpush, ih h, List.foldl_cons]

/-- A double holds fifty-three bits exactly. -/
theorem nearestDouble_eq {n : Nat} (h : n.log2 ≤ 52) : Number.nearestDouble n = n := by
  have hunit : Nat.pow 2 (n.log2 - 52) = 1 := by rw [Nat.sub_eq_zero_of_le h]
  simp only [Number.nearestDouble, hunit]
  simp [Nat.mod_one]

/-- Thirty-two bits are far from too large. -/
theorem isTooLarge_toDigits {n : Nat} (h : n < UInt32.size) :
    Number.isTooLarge ⟨false, Nat.toDigits 10 n, none, none⟩ = false := by
  have hvalue : (Nat.toDigits 10 n).foldl Number.push 0 = n := decimal_toDigits n
  have hfill : Number.fill 0 (Nat.toDigits 10 n) = (n, []) := by
    have hfits : (Nat.toDigits 10 n).foldl Number.push 0 < UInt64.size := by
      rw [hvalue]
      exact h.trans (by decide)
    rw [fill_eq_of_lt hfits, hvalue]
  have hscaled : Number.scaled ⟨false, Nat.toDigits 10 n, none, none⟩ = (n, 0) := by
    simp [Number.scaled, hfill, Number.fill, Number.power]
  have hlog : n.log2 ≤ 52 := by
    by_cases hn : n = 0
    · simp [hn]
    · have hlt : n < 2 ^ 53 := h.trans (by decide)
      have := (Nat.log2_lt hn).mpr hlt
      omega
  have hfinite : n < Number.infinite := by
    have hlarge : UInt32.size ≤ Number.infinite := by decide +kernel
    omega
  have hone : Number.nearestDouble 1 = 1 := nearestDouble_eq (by decide)
  simp [Number.isTooLarge, hscaled, nearestDouble_eq hlog, hone, hfinite, Number.largestPower]

/-- A number of thirty-two bits is read, after white space. -/
theorem takes_word (hws : Blank ws) (n : UInt32) (h : EndsNumber rest) :
    Takes word (ws ++ Nat.toDigits 10 n.toNat) rest n := by
  obtain ⟨c, cs, hcs, hdigit⟩ := exists_toDigits_eq_cons n.toNat
  have hhead : (Nat.toDigits 10 n.toNat).head? = some c := by rw [hcs, List.head?_cons]
  have hnumber : Takes number (Nat.toDigits 10 n.toNat) rest
      ⟨false, Nat.toDigits 10 n.toNat, none, none⟩ := by
    refine (takes_literal _ h .early).finish ?_
    rw [isTooLarge_toDigits n.toNat_lt]
    exact takes_pure _ rest
  refine .past_spaces hws hhead (isSpace_of_isDigit hdigit) ?_
  simp only [beginsNumber, hdigit, Bool.or_true, if_true]
  refine hnumber.finish ?_
  simp only [Number.natural?, Option.isSome_none, Bool.or_false, Bool.false_eq_true, if_false,
    decimal_toDigits, n.toNat_lt, if_true, UInt32.ofNat_toNat]
  exact takes_pure n rest

end Numbers

end Safelist.Json.Scan
