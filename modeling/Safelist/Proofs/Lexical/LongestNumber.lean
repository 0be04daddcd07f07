import Safelist.Proofs.Lexical.Spelling
import Safelist.Proofs.Lexical.Stepping

/-!
# A number is as long as it can be

Numbers are read digit by digit and nothing is ever given back, while their grammar
asks for the longest beginning of a text that is a number. The two agree: where a
text begins with a minus sign or a digit, the longest number is read if nothing
behind it would continue it, and otherwise the text is refused at that place.
-/

namespace Safelist.Lexical

namespace Number

/-- A text that follows the grammar of numbers. -/
def IsNumber (t : List Char) : Prop := ∃ n : Numeral, n.text = t

/-- The longest beginning of a text that is a number. -/
structure IsLongest (t cs : List Char) : Prop where
  /-- It is a number. -/
  number : IsNumber t
  /-- The text begins with it. -/
  begins : t <+: cs
  /-- No longer beginning is a number. -/
  longest : ∀ t', IsNumber t' → t' <+: cs → t'.length ≤ t.length

/-- A text begins with a number that nothing continues. -/
structure Ahead (cs t rest : List Char) : Prop where
  /-- The text is the number and what is behind it. -/
  split : cs = t ++ rest
  /-- The number is as long as it can be. -/
  longest : IsLongest t cs
  /-- Behind it stands neither a digit nor a period, an underscore or a letter. -/
  free : isContinued rest = false

variable {t t' cs rest more : List Char}

/-- A numeral by itself is scanned. -/
theorem Numeral.scan_text (n : Numeral) : scan n.text = .ok (n.lexeme, n.text.length) := by
  have h : scan (n.text ++ []) = .ok (n.lexeme, n.text.length) := scan_append n rfl
  rwa [List.append_nil] at h

/-- A number that goes on from another one continues it. -/
theorem Numeral.eq_nil_of_text_eq {n m : Numeral} (h : m.text = n.text ++ rest)
    (hr : isContinued rest = false) : rest = [] := by
  have hn := scan_append n hr
  have hm := m.scan_text
  rw [h, hn] at hm
  have hlength : n.text.length = (n.text ++ rest).length :=
    congrArg Prod.snd (Except.ok.inj hm)
  rw [List.length_append] at hlength
  exact List.length_eq_zero_iff.mp (by omega)

/-- The text of a number tells whether it has a fraction or an exponent. -/
theorem Numeral.isWhole_eq {n m : Numeral} (h : n.text = m.text) : n.isWhole = m.isWhole := by
  have hn := n.scan_text
  have hm := m.scan_text
  rw [h, hm] at hn
  have hlexeme : m.lexeme = n.lexeme := congrArg Prod.fst (Except.ok.inj hn)
  unfold lexeme at hlexeme
  cases hnw : n.isWhole <;> cases hmw : m.isWhole <;> simp_all

/-- The beginnings of what follows a number do not continue it either. -/
theorem isContinued_of_isPrefix (h : more <+: rest) (hr : isContinued rest = false) :
    isContinued more = false := by
  cases more with
  | nil => rfl
  | cons c more =>
    obtain ⟨tail, rfl⟩ := h
    exact hr

/-- A number that nothing continues is as long as it can be. -/
theorem isLongest_of_not_isContinued (n : Numeral) (hr : isContinued rest = false) :
    IsLongest n.text (n.text ++ rest) := by
  refine ⟨⟨n, rfl⟩, List.prefix_append _ _, ?_⟩
  rintro t' ⟨m, rfl⟩ hbegins
  by_contra hlt
  have hshorter : n.text <+: m.text :=
    List.prefix_of_prefix_length_le (List.prefix_append _ _) hbegins (by omega)
  obtain ⟨more, hmore⟩ := hshorter
  have hrest : more <+: rest := by
    rw [← hmore] at hbegins
    exact (List.prefix_append_right_inj _).mp hbegins
  have hnil : more = [] :=
    Numeral.eq_nil_of_text_eq hmore.symm (isContinued_of_isPrefix hrest hr)
  rw [← hmore, hnil, List.append_nil] at hlt
  exact hlt le_rfl

/-- What is scanned as a number is the number that a text begins with. -/
theorem scan_eq_ok_iff {l : Lexeme} {k : Nat} : scan cs = .ok (l, k) ↔
    ∃ (n : Numeral) (rest : List Char), Ahead cs n.text rest ∧ l = n.lexeme ∧
      k = n.text.length := by
  constructor
  · intro h
    obtain ⟨n, rest, hcs, hr, hl, hk⟩ := scan_eq_ok h
    exact ⟨n, rest, ⟨hcs, hcs ▸ isLongest_of_not_isContinued n hr, hr⟩, hl, hk⟩
  · rintro ⟨n, rest, hahead, rfl, rfl⟩
    rw [hahead.split]
    exact scan_append n hahead.free

/-- A number with a fraction or an exponent is told from one without. -/
theorem Numeral.lexeme_of_isFloat {n : Numeral} (h : IsFloat (String.ofList n.text)) :
    n.lexeme = .float (String.ofList n.text) := by
  obtain ⟨m, hm, ht⟩ := h
  rw [String.toList_ofList] at ht
  have hw : n.isWhole = false := (Numeral.isWhole_eq ht).trans hm
  simp [lexeme, hw]

theorem Numeral.lexeme_of_not_isFloat {n : Numeral} (h : ¬IsFloat (String.ofList n.text)) :
    n.lexeme = .int (String.ofList n.text) := by
  have hw : n.isWhole = true := by
    by_contra hw
    exact h ⟨n, by simpa using hw, by rw [String.toList_ofList]⟩
  simp [lexeme, hw]

end Number

namespace Lexer

open Number

/-- A minus sign or a digit begins a number. -/
theorem step_of_number {c : Char} (hc : c = '-' ∨ c.isDigit = true) (p : Position)
    (rest : List Char) : step p (c :: rest) =
      match Number.scan (c :: rest) with
      | .error problem => .error (.malformed p problem)
      | .ok (found, k) =>
        .ok (.token ⟨found, p⟩ (p.advance (c :: rest) (k - 1 + 1)) (rest.drop (k - 1))) := by
  obtain ⟨hi, hn, hp, -, hmark⟩ := isIgnored_of_isNameChar (isNameChar_or_of_number hc)
  rw [step_cons hi hn]
  unfold lexeme
  rw [hmark]
  simp only [hp, isNameStart_of_number hc, if_false, Bool.false_eq_true]
  rw [if_pos (by simpa using hc)]
  cases Number.scan (c :: rest) <;> rfl

/-- Where a text begins with a number that nothing continues, a step reads it. -/
theorem step_of_ahead {c : Char} (hc : c = '-' ∨ c.isDigit = true) (p : Position)
    {tail rest : List Char} {n : Numeral} (h : Ahead (c :: tail) n.text rest) :
    step p (c :: tail) =
      .ok (.token ⟨n.lexeme, p⟩ (p.advance (c :: tail) n.text.length) rest) := by
  have hscan := scan_eq_ok_iff.mpr ⟨n, rest, h, rfl, rfl⟩
  obtain ⟨d, ds, htext, -⟩ := n.exists_text_eq_cons
  have hpos : n.text.length - 1 + 1 = n.text.length := by
    rw [htext, List.length_cons]
    omega
  have hdrop : tail.drop (n.text.length - 1) = rest := by
    have hsplit : (c :: tail).drop (n.text.length - 1 + 1) = rest := by
      rw [hpos, h.split, List.drop_left]
    exact hsplit
  rw [step_of_number hc, hscan]
  simp only [hpos, hdrop]

/-- A step at a minus sign or a digit reads the longest number there, if nothing continues it, as
a number with fraction or exponent if it has one. In all other cases it fails at that place. -/
theorem step_reads_longest_number (p : Position) {cs : List Char}
    (hcs : ∃ c ∈ cs.head?, c = '-' ∨ c.isDigit = true) :
    (∀ token q rest, step p cs = .ok (.token token q rest) ↔
      ∃ t, Ahead cs t rest ∧ token.position = p ∧ q = p.advance cs t.length ∧
        (IsFloat (String.ofList t) ∧ token.lexeme = .float (String.ofList t) ∨
          ¬IsFloat (String.ofList t) ∧ token.lexeme = .int (String.ofList t))) ∧
    ((¬∃ t rest, Ahead cs t rest) → ∃ problem, step p cs = .error (.malformed p problem)) := by
  obtain ⟨c, hhead, hc⟩ := hcs
  obtain ⟨tail, rfl⟩ := List.head?_eq_some_iff.mp hhead
  refine ⟨fun token q rest => ⟨fun h => ?_, fun h => ?_⟩, fun hnone => ?_⟩
  · rw [step_of_number hc] at h
    cases hscan : Number.scan (c :: tail) with
    | error problem => simp [hscan] at h
    | ok found =>
      obtain ⟨n, after, hahead, hl, hk⟩ := scan_eq_ok_iff.mp hscan
      have hstep := step_of_ahead hc p hahead
      rw [step_of_number hc, h] at hstep
      cases hstep
      refine ⟨n.text, hahead, rfl, rfl, ?_⟩
      by_cases hfloat : IsFloat (String.ofList n.text)
      · exact .inl ⟨hfloat, Numeral.lexeme_of_isFloat hfloat⟩
      · exact .inr ⟨hfloat, Numeral.lexeme_of_not_isFloat hfloat⟩
  · obtain ⟨t, hahead, hposition, hq, hkind⟩ := h
    obtain ⟨n, rfl⟩ := hahead.longest.number
    have hlexeme : token.lexeme = n.lexeme := by
      rcases hkind with ⟨hfloat, hl⟩ | ⟨hfloat, hl⟩
      · rw [hl, Numeral.lexeme_of_isFloat hfloat]
      · rw [hl, Numeral.lexeme_of_not_isFloat hfloat]
    have htoken : token = ⟨n.lexeme, p⟩ := by rw [← hlexeme, ← hposition]
    rw [step_of_ahead hc p hahead, htoken, hq]
  · rw [step_of_number hc]
    cases hscan : Number.scan (c :: tail) with
    | error problem => exact ⟨problem, rfl⟩
    | ok found =>
      obtain ⟨n, rest, hahead, -⟩ := scan_eq_ok_iff.mp hscan
      exact absurd ⟨n.text, rest, hahead⟩ hnone

theorem isDigits_singleton {d : Char} (h : d.isDigit = true) : IsDigits [d] :=
  ⟨List.cons_ne_nil d [], List.forall_mem_singleton.mpr h⟩

/-- A negative number with fraction and exponent. -/
def signedNumeral : Numeral where
  sign := ['-']
  whole := ['0']
  fraction := ['.', '5']
  exponent := ['e', '+', '1']
  sign_eq := .inr rfl
  whole_digits := isDigits_singleton (by decide)
  whole_zero := fun _ => rfl
  fraction_ok := .inr ⟨['5'], isDigits_singleton (by decide), rfl⟩
  exponent_ok := .inr ⟨'e', ['+'], ['1'], .inl rfl, .inr (.inl rfl),
    isDigits_singleton (by decide), rfl⟩

/-- The number is read up to the brace behind it, and no number is read where a digit follows a
leading zero. -/
theorem step_reads_longest_number_signed :
    (∃ c ∈ ("-0.5e+1\x7d".toList).head?, c = '-' ∨ c.isDigit = true) ∧
      step .start "-0.5e+1\x7d".toList =
        .ok (.token ⟨.float "-0.5e+1", .start⟩ ⟨1, 8⟩ ['\x7d']) ∧
      ∃ problem, step .start "01".toList = .error (.malformed .start problem) := by
  have hminus : ∃ c ∈ ("-0.5e+1\x7d".toList).head?, c = '-' ∨ c.isDigit = true :=
    ⟨'-', by decide, .inl rfl⟩
  have hahead : Ahead "-0.5e+1\x7d".toList signedNumeral.text ['\x7d'] :=
    ⟨by decide, isLongest_of_not_isContinued signedNumeral (by decide), by decide⟩
  have hfloat : IsFloat (String.ofList signedNumeral.text) :=
    ⟨signedNumeral, by decide, by rw [String.toList_ofList]⟩
  have hnone : ¬∃ t rest, Ahead "01".toList t rest := by
    rintro ⟨t, rest, h⟩
    obtain ⟨n, rfl⟩ := h.longest.number
    have hscan : Number.scan "01".toList = .error .digitAfterZero := by decide
    rw [scan_eq_ok_iff.mpr ⟨n, rest, h, rfl, rfl⟩] at hscan
    cases hscan
  refine ⟨hminus, ?_, (step_reads_longest_number .start ⟨'0', by decide, by decide⟩).2 hnone⟩
  exact ((step_reads_longest_number .start hminus).1 _ _ _).mpr
    ⟨_, hahead, rfl, by decide, .inl ⟨hfloat, rfl⟩⟩

end Lexer

end Safelist.Lexical
