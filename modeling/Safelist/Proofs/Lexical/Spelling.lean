import Safelist.Lexical.Lexer
import Safelist.Proofs.Lexical.Numeral
import Safelist.Proofs.Lexical.Quotation

/-!
# Lexemes and their spellings

A lexeme is well formed when its text follows the rules of its kind. The spelling
of a well-formed lexeme is read back as that lexeme when nothing behind it would be
read into it.
-/

namespace Safelist.Lexical

/-- A letter or an underscore, then letters, digits and underscores. -/
def IsName (text : String) : Prop :=
  ∃ c cs, text.toList = c :: cs ∧ isNameStart c = true ∧ ∀ d ∈ cs, isNameChar d = true

instance (text : String) : Decidable (IsName text) :=
  match h : text.toList with
  | [] => .isFalse fun ⟨c, cs, ht, _⟩ => by simp [h] at ht
  | c :: cs => decidable_of_iff ((isNameStart c && cs.all isNameChar) = true)
      ⟨fun hc => ⟨c, cs, h, by simpa using hc⟩, fun ⟨c', cs', ht, hc⟩ => by simp_all⟩

/-- The text of a number without fraction and exponent. -/
def IsInt (text : String) : Prop :=
  ∃ n : Number.Numeral, n.isWhole = true ∧ text.toList = n.text

/-- The text of a number with a fraction, an exponent or both. -/
def IsFloat (text : String) : Prop :=
  ∃ n : Number.Numeral, n.isWhole = false ∧ text.toList = n.text

namespace Lexeme

/-- The text of a name or a number follows its rules; any string may be decoded. -/
def WellFormed : Lexeme → Prop
  | .mark _ => True
  | .name text => IsName text
  | .int text => IsInt text
  | .float text => IsFloat text
  | .string _ => True
  | .block _ => True

/-- A lexeme with a plain string in place of a block string. -/
def plain : Lexeme → Lexeme
  | .block value => .string value
  | l => l

/-- Nothing of what follows a lexeme would be read into it. -/
def EndsBefore (rest : List Char) : Lexeme → Prop
  | .mark _ => True
  | .name _ => rest.head?.any isNameChar = false
  | .int _ => Number.isContinued rest = false
  | .float _ => Number.isContinued rest = false
  | .string _ => rest.head? ≠ some '"'
  | .block _ => rest.head? ≠ some '"'

end Lexeme

/-- An integer is the lexeme of a numeral. -/
theorem IsInt.exists_numeral {text : String} (h : IsInt text) :
    ∃ n : Number.Numeral, text.toList = n.text ∧ n.lexeme = .int text := by
  obtain ⟨n, hn, ht⟩ := h
  exact ⟨n, ht, by simp [Number.Numeral.lexeme, hn, ← ht]⟩

/-- A number with fraction or exponent is the lexeme of a numeral. -/
theorem IsFloat.exists_numeral {text : String} (h : IsFloat text) :
    ∃ n : Number.Numeral, text.toList = n.text ∧ n.lexeme = .float text := by
  obtain ⟨n, hn, ht⟩ := h
  exact ⟨n, ht, by simp [Number.Numeral.lexeme, hn, ← ht]⟩

/-- A numeral begins with a minus sign or a digit. -/
theorem Number.Numeral.exists_text_eq_cons (n : Numeral) :
    ∃ c cs, n.text = c :: cs ∧ (c = '-' ∨ c.isDigit = true) := by
  obtain ⟨d, ds, hw⟩ := List.exists_cons_of_ne_nil n.whole_digits.1
  have hd : d.isDigit = true := n.whole_digits.2 d (by simp [hw])
  obtain hs | hs := n.sign_eq
  · exact ⟨d, _, by rw [text, hs, hw]; rfl, .inr hd⟩
  · exact ⟨'-', _, by rw [text, hs]; rfl, .inl rfl⟩

/-- A numeral ends with a digit. -/
theorem Number.Numeral.exists_text_eq_append (n : Numeral) :
    ∃ cs d, n.text = cs ++ [d] ∧ d.isDigit = true := by
  have hlast : ∀ ds, IsDigits ds → ∃ cs d, ds = cs ++ [d] ∧ d.isDigit = true := by
    intro ds hds
    refine ⟨ds.dropLast, ds.getLast hds.1, (List.dropLast_concat_getLast hds.1).symm, ?_⟩
    exact hds.2 _ (List.getLast_mem hds.1)
  unfold text
  obtain he | ⟨e, s, ds, -, -, hds, he⟩ := n.exponent_ok
  · obtain hf | ⟨ds, hds, hf⟩ := n.fraction_ok
    · obtain ⟨cs, d, hw, hd⟩ := hlast _ n.whole_digits
      exact ⟨n.sign ++ cs, d, by simp [he, hf, hw], hd⟩
    · obtain ⟨cs, d, hw, hd⟩ := hlast _ hds
      exact ⟨n.sign ++ n.whole ++ '.' :: cs, d, by simp [he, hf, hw], hd⟩
  · obtain ⟨cs, d, hw, hd⟩ := hlast _ hds
    exact ⟨n.sign ++ n.whole ++ n.fraction ++ e :: (s ++ cs), d, by simp [he, hw], hd⟩

namespace Lexer

/-- A letter, a digit, an underscore or a minus sign begins neither ignored text nor a mark
nor a string. -/
theorem isIgnored_of_isNameChar {c : Char} (h : isNameChar c = true ∨ c = '-') :
    isIgnored c = false ∧ c ≠ '#' ∧ c ≠ '.' ∧ c ≠ '"' ∧ Mark.ofChar? c = none := by
  refine ⟨?_, ?_, ?_, ?_, ?_⟩
  · cases hi : isIgnored c with
    | false => rfl
    | true =>
      simp only [isIgnored, Bool.or_eq_true, decide_eq_true_eq] at hi
      obtain ((((rfl | rfl) | rfl) | rfl) | rfl) | rfl := hi <;> revert h <;> decide
  · rintro rfl
    revert h
    decide
  · rintro rfl
    revert h
    decide
  · rintro rfl
    revert h
    decide
  · unfold Mark.ofChar?
    split <;> first | rfl | (revert h; decide)

/-- A letter or an underscore is a character of names. -/
theorem isNameChar_of_isNameStart {c : Char} (h : isNameStart c = true) : isNameChar c = true := by
  simp only [isNameStart, Bool.or_eq_true] at h
  simp only [isNameChar, Char.isAlphanum, Bool.or_eq_true]
  exact h.imp_right .inl

/-- A digit or a minus sign begins no name. -/
theorem isNameStart_of_number {c : Char} (h : c = '-' ∨ c.isDigit = true) :
    isNameStart c = false := by
  obtain rfl | h := h
  · decide
  · cases hs : isNameStart c with
    | false => rfl
    | true =>
      have hd : c.val ≥ '0'.val ∧ c.val ≤ '9'.val := by simpa [Char.isDigit] using h
      have ha : c = '_' ∨ c.isAlpha = true := by simpa [isNameStart] using hs
      obtain rfl | ha := ha
      · revert h
        decide
      · obtain hu | hl := (Bool.or_eq_true _ _).mp ha
        · have hu' : c.val ≥ 'A'.val ∧ c.val ≤ 'Z'.val := of_decide_eq_true hu
          exact absurd (UInt32.le_trans hu'.1 hd.2) (by decide)
        · have hl' : c.val ≥ 'a'.val := of_decide_eq_true ((Bool.and_eq_true _ _).mp hl).1
          exact absurd (UInt32.le_trans hl' hd.2) (by decide)

/-- A digit is a character of names. -/
theorem isNameChar_or_of_number {c : Char} (h : c = '-' ∨ c.isDigit = true) :
    isNameChar c = true ∨ c = '-' := by
  obtain rfl | h := h
  · exact .inr rfl
  · exact .inl (by simp [isNameChar, Char.isAlphanum, h])

/-- A name is read when no character of names follows it. -/
theorem lexeme_name {c : Char} {more rest : List Char} (hc : isNameStart c = true)
    (hm : ∀ d ∈ more, isNameChar d = true) (hr : rest.head?.any isNameChar = false) :
    lexeme c (more ++ rest) = .ok (.name (String.ofList (c :: more)), more.length) := by
  obtain ⟨-, -, hp, -, hmark⟩ := isIgnored_of_isNameChar (.inl (isNameChar_of_isNameStart hc))
  unfold lexeme
  rw [hmark]
  simp [hp, hc, takeWhile_append_eq hm hr]

/-- A number is read when nothing continues it. -/
theorem lexeme_number (n : Number.Numeral) {rest : List Char}
    (hr : Number.isContinued rest = false) :
    ∃ c cs, n.text = c :: cs ∧ isIgnored c = false ∧ c ≠ '#' ∧
      lexeme c (cs ++ rest) = .ok (n.lexeme, cs.length) := by
  obtain ⟨c, cs, ht, hnum⟩ := n.exists_text_eq_cons
  obtain ⟨hi, hn, hp, -, hmark⟩ := isIgnored_of_isNameChar (isNameChar_or_of_number hnum)
  refine ⟨c, cs, ht, hi, hn, ?_⟩
  have hscan := Number.scan_append n hr
  rw [ht, List.cons_append] at hscan
  unfold lexeme
  rw [hmark]
  simp [hp, isNameStart_of_number hnum, hnum, hscan, Except.map]

/-- A quoted text is read when no quote follows it. -/
theorem lexeme_quote (value : String) {rest : List Char} (hr : rest.head? ≠ some '"') :
    ∃ c cs, Text.Escape.json.quote value.toList = c :: cs ∧ isIgnored c = false ∧ c ≠ '#' ∧
      lexeme c (cs ++ rest) = .ok (.string value, cs.length) := by
  refine ⟨'"', _, rfl, by decide, by decide, ?_⟩
  have hscan : Quoted.scan (Text.Escape.json.body value.toList ++ '"' :: rest) = _ :=
    Quoted.scan_json hr
  rw [String.ofList_toList] at hscan
  rw [List.append_assoc, List.length_append, List.length_singleton]
  exact hscan

/-- A mark is read, whatever follows it. -/
theorem lexeme_mark (m : Mark) (rest : List Char) :
    ∃ c cs, m.spelling = c :: cs ∧ isIgnored c = false ∧ c ≠ '#' ∧
      lexeme c (cs ++ rest) = .ok (.mark m, cs.length) := by
  cases m <;> exact ⟨_, _, rfl, by decide, by decide, rfl⟩

/-- The spelling of a well-formed lexeme is read as the lexeme, a block string as a plain
one, when the text behind it does not belong to it. -/
theorem lexeme_spelling {l : Lexeme} (hl : l.WellFormed) {rest : List Char}
    (hr : l.EndsBefore rest) :
    ∃ c cs, l.spelling = c :: cs ∧ isIgnored c = false ∧ c ≠ '#' ∧
      lexeme c (cs ++ rest) = .ok (l.plain, cs.length) := by
  cases l with
  | mark m => exact lexeme_mark m rest
  | name text =>
    obtain ⟨c, cs, ht, hc, hcs⟩ := hl
    obtain ⟨hi, hn, -⟩ := isIgnored_of_isNameChar (.inl (isNameChar_of_isNameStart hc))
    refine ⟨c, cs, ht, hi, hn, ?_⟩
    rw [lexeme_name hc hcs hr, ← ht, String.ofList_toList]
    rfl
  | int text =>
    obtain ⟨n, ht, hn⟩ := hl.exists_numeral
    have hp : (Lexeme.int text).plain = n.lexeme := hn.symm
    rw [Lexeme.spelling, ht, hp]
    exact lexeme_number n hr
  | float text =>
    obtain ⟨n, ht, hn⟩ := hl.exists_numeral
    have hp : (Lexeme.float text).plain = n.lexeme := hn.symm
    rw [Lexeme.spelling, ht, hp]
    exact lexeme_number n hr
  | string value => exact lexeme_quote value hr
  | block value => exact lexeme_quote value hr

/-- A text consists of these lexemes, wherever it begins. -/
def Lexes (cs : List Char) (ls : List Lexeme) : Prop :=
  ∀ p, ∃ stream, scan p cs = .ok stream ∧ stream.tokens.map Token.lexeme = ls

/-- The empty text has no lexemes. -/
theorem lexes_nil : Lexes [] [] := fun p => ⟨⟨[], p⟩, by rw [scan], rfl⟩

/-- An ignored character adds no lexeme. -/
theorem lexes_ignored {c : Char} {rest : List Char} {ls : List Lexeme} (hc : isIgnored c = true)
    (h : Lexes rest ls) : Lexes (c :: rest) ls := by
  intro p
  rw [scan, if_pos hc]
  exact h _

/-- A lexeme comes before those behind it. -/
theorem lexes_cons {c : Char} {cs rest : List Char} {l : Lexeme} {ls : List Lexeme}
    (hi : isIgnored c = false) (hn : c ≠ '#') (hl : lexeme c (cs ++ rest) = .ok (l, cs.length))
    (h : Lexes rest ls) : Lexes (c :: cs ++ rest) (l :: ls) := by
  intro p
  obtain ⟨stream, hs, hls⟩ := h (p.advance (c :: (cs ++ rest)) (cs.length + 1))
  refine ⟨{ stream with tokens := ⟨l, p⟩ :: stream.tokens }, ?_, by simp [hls]⟩
  rw [List.cons_append, scan, hl]
  simp only [hi, hn, Bool.false_eq_true, if_false, List.drop_left, hs]
  rfl

end Lexer

end Safelist.Lexical
