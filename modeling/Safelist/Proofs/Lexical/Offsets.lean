import Mathlib.Data.List.DropRight
import Safelist.Proofs.Lexical.Written

/-!
# Positions are places in the source

A reader counts lines and columns while it goes on, and looks one character ahead to
count a carriage return and a line feed in a row once. Where a lexeme begins, and at the
end, its count is what can be told from the text before: one more than the line
terminators there, and one more than the characters behind the last of them. Every token
and every error lies at such an offset, and only ignored text stands between tokens.
-/

namespace Safelist.Lexical

open Lexer (isLineEnd isIgnored lexeme)

namespace Position

/-- The number of line terminators in a text. A carriage return and a line feed in a row are
one terminator. -/
def terminators : List Char → Nat
  | [] => 0
  | '\r' :: '\n' :: rest => terminators rest + 1
  | c :: rest => terminators rest + if isLineEnd c then 1 else 0

/-- The characters behind the last line terminator of a text. -/
def lastLine (cs : List Char) : List Char := cs.rtakeWhile fun c => !isLineEnd c

/-- The position of an offset, told from the text before it. -/
def ofOffset (source : List Char) (o : Nat) : Position :=
  ⟨1 + terminators (source.take o), 1 + (lastLine (source.take o)).length⟩

theorem terminators_eq_zero_iff {cs : List Char} :
    terminators cs = 0 ↔ ∀ c ∈ cs, isLineEnd c = false := by
  fun_induction terminators cs with
  | case1 => simp
  | case2 rest ih => simp [isLineEnd]
  | case3 c rest _ ih =>
    cases hc : isLineEnd c <;> simp [hc, ih]

/-- Where no line ends, the last line is the whole text. -/
theorem lastLine_of_terminators_eq_zero {cs : List Char} (h : terminators cs = 0) :
    lastLine cs = cs := by
  refine List.rtakeWhile_eq_self_iff.mpr fun c hc => ?_
  simp [terminators_eq_zero_iff.mp h c hc]

/-- Behind a line terminator that is the last one, the last line is all that follows. -/
theorem lastLine_cons_of_isLineEnd {c : Char} {rest : List Char} (hc : isLineEnd c = true)
    (h : terminators rest = 0) : lastLine (c :: rest) = rest := by
  have hrest : ∀ d ∈ rest.reverse, (!isLineEnd d) = true := fun d hd => by
    simp [terminators_eq_zero_iff.mp h d (List.mem_reverse.mp hd)]
  rw [lastLine, List.rtakeWhile, List.reverse_cons, List.takeWhile_append_of_pos hrest]
  simp [hc]

/-- What stands before another line terminator does not matter. -/
theorem lastLine_cons_of_terminators_ne_zero {rest : List Char} (h : terminators rest ≠ 0)
    (c : Char) : lastLine (c :: rest) = lastLine rest := by
  have hshort : (rest.reverse.takeWhile fun d => !isLineEnd d).length ≠ rest.reverse.length := by
    intro hlength
    have hwhole := (List.takeWhile_prefix _).eq_of_length hlength
    refine h (terminators_eq_zero_iff.mpr fun d hd => ?_)
    simpa using List.takeWhile_eq_self_iff.mp hwhole d (List.mem_reverse.mpr hd)
  rw [lastLine, List.rtakeWhile, List.reverse_cons, List.takeWhile_append, if_neg hshort]
  rfl

/-- The column behind a text is counted from its last line terminator, or goes on where it has
none. -/
def columnBehind (column : Nat) (cs : List Char) : Nat :=
  if terminators cs = 0 then column + cs.length else 1 + (lastLine cs).length

/-- Past a line terminator the column begins anew. -/
theorem columnBehind_cons_of_isLineEnd {c : Char} {rest : List Char} (hc : isLineEnd c = true)
    (ht : terminators (c :: rest) ≠ 0) (column : Nat) :
    columnBehind column (c :: rest) = columnBehind 1 rest := by
  rw [columnBehind, if_neg ht, columnBehind]
  split
  · rename_i h
    rw [lastLine_cons_of_isLineEnd hc h]
  · rename_i h
    rw [lastLine_cons_of_terminators_ne_zero h]

/-- Past any other character the column is one further. -/
theorem columnBehind_cons_of_not_isLineEnd {c : Char} {rest : List Char}
    (ht : terminators (c :: rest) = terminators rest) (column : Nat) :
    columnBehind column (c :: rest) = columnBehind (column + 1) rest := by
  rw [columnBehind, columnBehind, ht]
  split
  · rw [List.length_cons]
    omega
  · rename_i h
    rw [lastLine_cons_of_terminators_ne_zero h]

/-- Going on past a text counts its line terminators, unless the last one is only half passed. -/
theorem advance_append (p : Position) (before : List Char) {after : List Char}
    (h : after.head? ≠ some '\n') : p.advance (before ++ after) before.length =
      ⟨p.line + terminators before, columnBehind p.column before⟩ := by
  fun_induction terminators before generalizing p with
  | case1 => simp [columnBehind, terminators]
  | case2 rest ih =>
    have hpast : p.advance ('\r' :: '\n' :: rest ++ after) ('\r' :: '\n' :: rest).length =
        (⟨p.line + 1, 1⟩ : Position).advance (rest ++ after) rest.length := by
      simp [past]
    have hfeed : terminators ('\n' :: rest) ≠ 0 := by simp [terminators, isLineEnd]
    have hcolumn : columnBehind p.column ('\r' :: '\n' :: rest) = columnBehind 1 rest := by
      rw [← columnBehind_cons_of_isLineEnd (by decide) hfeed p.column, columnBehind, columnBehind,
        if_neg hfeed, if_neg (by simp [terminators]), lastLine_cons_of_terminators_ne_zero hfeed]
    rw [hpast, ih, hcolumn, Nat.add_assoc, Nat.add_comm 1]
  | case3 c rest hpair ih =>
    have hcount : terminators (c :: rest) = terminators rest + if isLineEnd c then 1 else 0 := by
      rw [terminators]
      exact hpair
    have hnext : c = '\r' → (rest ++ after).head? ≠ some '\n' := by
      intro hc
      cases rest with
      | nil => exact h
      | cons d rest =>
        rintro ⟨⟩
        exact hpair rest hc rfl
    rw [List.cons_append, List.length_cons, advance_cons, ih]
    cases hc : isLineEnd c with
    | true =>
      have hpast : p.past c (rest ++ after).head? = ⟨p.line + 1, 1⟩ := by
        have hends : c = '\n' ∨ c = '\r' := by simpa [isLineEnd] using hc
        rcases hends with rfl | rfl
        · simp [past]
        · rw [past, if_neg (by decide), if_pos rfl, if_neg (hnext rfl)]
      have hends : terminators (c :: rest) ≠ 0 := by simp [hcount, hc]
      rw [hpast, columnBehind_cons_of_isLineEnd hc hends]
      simp only [mk.injEq, if_true, and_true]
      omega
    | false =>
      have hpast : p.past c (rest ++ after).head? = ⟨p.line, p.column + 1⟩ := by
        have hends : c ≠ '\n' ∧ c ≠ '\r' := by simpa [isLineEnd] using hc
        simp [past, hends.1, hends.2]
      rw [hpast, columnBehind_cons_of_not_isLineEnd (by simp [hcount, hc])]
      rfl

/-- What a reader counts up to an offset is the position of that offset, unless a line feed
stands there. -/
theorem advance_start {source : List Char} {o : Nat} (ho : o ≤ source.length)
    (h : (source.drop o).head? ≠ some '\n') : start.advance source o = ofOffset source o := by
  have hcount := start.advance_append (source.take o) h
  rw [List.take_append_drop, List.length_take_of_le ho] at hcount
  rw [hcount, ofOffset, columnBehind]
  split
  · rename_i hnone
    rw [lastLine_of_terminators_eq_zero hnone]
    rfl
  · rfl

end Position

namespace Lexer

/-- Ignored text, given what follows it. A comment goes to the end of its line. -/
inductive Gap : List Char → List Char → Prop
  /-- There is none. -/
  | nil {after : List Char} : Gap [] after
  /-- An ignored character. -/
  | ignored {c : Char} {gap after : List Char} (hc : isIgnored c = true) (h : Gap gap after) :
      Gap (c :: gap) after
  /-- A comment. -/
  | comment {text gap after : List Char} (htext : ∀ c ∈ text, isLineEnd c = false)
      (hend : ∀ c ∈ (gap ++ after).head?, isLineEnd c = true) (h : Gap gap after) :
      Gap ('#' :: (text ++ gap)) after

/-- Between two offsets of a source stands only ignored text. -/
structure IgnoredBetween (source : List Char) (a b : Nat) : Prop where
  /-- The second offset is not before the first. -/
  le : a ≤ b
  /-- It lies in the source. -/
  le_length : b ≤ source.length
  /-- What stands between them is ignored. -/
  gap : Gap ((source.take b).drop a) (source.drop b)

/-- Lexemes that stand one behind the other in a source from an offset on, each with its own
offset, and only ignored text before each of them and before the offset at which this ends. -/
inductive Laid (source : List Char) : Nat → List (Nat × Lexeme) → Nat → Prop
  /-- No lexeme stands there. -/
  | done {a stop : Nat} (h : IgnoredBetween source a stop) : Laid source a [] stop
  /-- A lexeme is written before the others. -/
  | cons {a o stop : Nat} {l : Lexeme} {spelling : List Char} {places : List (Nat × Lexeme)}
      (hgap : IgnoredBetween source a o) (hform : l.Written spelling)
      (hbegins : spelling <+: source.drop o) (h : Laid source (o + spelling.length) places stop) :
      Laid source a ((o, l) :: places) stop

/-- At an offset something begins that is neither ignored nor a lexeme, and reading fails there. -/
def FailsAt (source : List Char) (o : Nat) (e : ReadError) : Prop :=
  ∃ c rest problem, source.drop o = c :: rest ∧ isIgnored c = false ∧ c ≠ '#' ∧
    lexeme c rest = .error problem ∧ e = .malformed (.ofOffset source o) problem

variable {source : List Char} {a o stop : Nat}

/-- The offsets of lexemes that stand one behind the other increase up to the end. -/
theorem Laid.pairwise_lt {places : List (Nat × Lexeme)} (h : Laid source a places stop) :
    (places.map Prod.fst ++ [stop]).Pairwise (· < ·) ∧
      ∀ o ∈ places.map Prod.fst ++ [stop], a ≤ o := by
  induction h with
  | done h => simpa using h.le
  | cons hgap hform hbegins _ ih =>
    have hpos := List.length_pos_of_ne_nil hform.ne_nil
    have hle := hgap.le
    refine ⟨List.pairwise_cons.mpr ⟨fun o ho => ?_, ih.1⟩, List.forall_mem_cons.mpr ⟨hle, ?_⟩⟩
    · have hbehind := ih.2 o ho
      omega
    · intro o ho
      have hbehind := ih.2 o ho
      omega

/-- Behind a comment stands what follows its text. -/
theorem drop_commentLength (cs : List Char) :
    cs.drop (commentLength cs) = cs.dropWhile fun c => !isLineEnd c := by
  have hcut : (cs.takeWhile (fun c => !isLineEnd c) ++ cs.dropWhile fun c => !isLineEnd c).drop
      (commentLength cs) = cs.dropWhile fun c => !isLineEnd c := List.drop_left
  rwa [List.takeWhile_append_dropWhile] at hcut

/-- A comment goes to the end of its line. -/
theorem isLineEnd_of_head?_drop {cs : List Char} :
    ∀ c ∈ (cs.drop (commentLength cs)).head?, isLineEnd c = true := by
  intro c hc
  have hhalt := cs.head?_dropWhile_not fun c => !isLineEnd c
  rw [drop_commentLength] at hc
  rw [hc] at hhalt
  simpa using hhalt

/-- Only ignored text is passed over, up to what is not ignored. -/
theorem pass_eq (p : Position) (cs : List Char) : ∃ gap rest, cs = gap ++ rest ∧
    pass p cs = (p.advance cs gap.length, rest) ∧ Gap gap rest ∧
      ∀ c ∈ rest.head?, isIgnored c = false ∧ c ≠ '#' := by
  fun_induction pass p cs with
  | case1 p => exact ⟨[], [], rfl, by simp, .nil, by simp⟩
  | case2 p c rest hc ih =>
    obtain ⟨gap, after, rfl, hpass, hgap, hhead⟩ := ih
    exact ⟨c :: gap, after, rfl, hpass, .ignored hc hgap, hhead⟩
  | case3 p rest n hi ih =>
    obtain ⟨gap, after, hrest, hpass, hgap, hhead⟩ := ih
    have hsplit : rest = rest.takeWhile (fun c => !isLineEnd c) ++ (gap ++ after) := by
      rw [← hrest, drop_commentLength, List.takeWhile_append_dropWhile]
    have hlength : n + 1 + gap.length =
        ('#' :: (rest.takeWhile (fun c => !isLineEnd c) ++ gap)).length := by
      rw [List.length_cons, List.length_append]
      exact Nat.add_right_comm _ _ _
    have hbehind : rest.drop n = ('#' :: rest).drop (n + 1) := rfl
    refine ⟨'#' :: (rest.takeWhile (fun c => !isLineEnd c) ++ gap), after, ?_, ?_, ?_, hhead⟩
    · rw [List.cons_append, List.append_assoc, ← hsplit]
    · rw [hpass, hbehind, Position.advance_advance, hlength]
    · refine .comment (fun c hc => ?_) (hrest ▸ isLineEnd_of_head?_drop) hgap
      simpa using List.mem_takeWhile_imp hc
  | case4 p c rest hi hn =>
    refine ⟨[], c :: rest, rfl, by simp, .nil, ?_⟩
    rintro d ⟨⟩
    exact ⟨by simpa using hi, hn⟩

/-- What a step comes to at an offset: behind ignored text it finds the end, or reads a lexeme that
is written there, or fails. -/
def StepAt (source : List Char) (a : Nat) : Except ReadError Step → Prop
  | .ok (.stop q) =>
    IgnoredBetween source a source.length ∧ q = .ofOffset source source.length
  | .ok (.token token q rest) => ∃ o spelling, IgnoredBetween source a o ∧
    token.lexeme.Written spelling ∧ spelling <+: source.drop o ∧
    token.position = .ofOffset source o ∧
    q = Position.start.advance source (o + spelling.length) ∧
    rest = source.drop (o + spelling.length)
  | .error e => ∃ o, IgnoredBetween source a o ∧ FailsAt source o e

/-- A step from an offset of a source. -/
theorem step_at (ha : a ≤ source.length) :
    StepAt source a (step (.advance .start source a) (source.drop a)) := by
  obtain ⟨gap, rest, hsplit, hpass, hgap, hhead⟩ :=
    pass_eq (Position.start.advance source a) (source.drop a)
  have hlength : source.length - a = gap.length + rest.length := by
    rw [← List.length_drop, hsplit, List.length_append]
  have hdrop : source.drop (a + gap.length) = rest := by
    rw [← List.drop_drop, hsplit, List.drop_left]
  have hskip : IgnoredBetween source a (a + gap.length) := by
    refine ⟨by omega, by omega, ?_⟩
    rw [List.drop_take, Nat.add_sub_cancel_left, hsplit, List.take_left, hdrop]
    exact hgap
  have hposition : Position.start.advance source (a + gap.length) =
      .ofOffset source (a + gap.length) := by
    refine Position.advance_start hskip.le_length ?_
    rw [hdrop]
    intro hfeed
    exact absurd (hhead _ hfeed).1 (by decide)
  rw [Position.advance_advance, hposition] at hpass
  rw [step, hpass]
  cases rest with
  | nil =>
    have hend : a + gap.length = source.length := by
      rw [List.length_nil] at hlength
      omega
    rw [hend] at hskip
    exact ⟨hskip, by rw [hend]⟩
  | cons c rest =>
    obtain ⟨hi, hn⟩ := hhead c rfl
    simp only
    cases hl : lexeme c rest with
    | error problem => exact ⟨_, hskip, c, rest, problem, hdrop, hi, hn, hl, rfl⟩
    | ok found =>
      obtain ⟨spelling, hbegins, hspelling, hform⟩ := written_of_lexeme hl
      refine ⟨_, spelling, hskip, hform, hdrop ▸ hbegins, rfl, ?_, ?_⟩
      · have hbehind := Position.start.advance_advance source (a + gap.length) (found.2 + 1)
        rw [hposition, hdrop] at hbehind
        rw [hspelling]
        exact hbehind
      · rw [hspelling, ← List.drop_drop, hdrop]
        rfl

/-- The token of a lexeme that is written at an offset. -/
def tokenAt (source : List Char) (place : Nat × Lexeme) : Token :=
  ⟨place.2, .ofOffset source place.1⟩

/-- What reading comes to from an offset on. -/
def ReadFrom (source : List Char) (a : Nat) : Except ReadError TokenStream → Prop
  | .ok stream => ∃ places, Laid source a places source.length ∧
    stream.tokens = places.map (tokenAt source) ∧
    stream.stop = .ofOffset source source.length
  | .error e => ∃ places o, Laid source a places o ∧ FailsAt source o e

/-- Reading from an offset of a source. -/
theorem scan_at (ha : a ≤ source.length) :
    ReadFrom source a (scan (.advance .start source a) (source.drop a)) := by
  induction hk : source.length - a using Nat.strong_induction_on generalizing a with
  | _ k ih =>
    have hstep := step_at ha
    rw [scan_eq_step]
    cases hs : step (.advance .start source a) (source.drop a) with
    | error e =>
      rw [hs] at hstep
      obtain ⟨o, hskip, hfails⟩ := hstep
      exact ⟨[], o, .done hskip, hfails⟩
    | ok found =>
      cases found with
      | stop q =>
        rw [hs] at hstep
        obtain ⟨hskip, rfl⟩ := hstep
        exact ⟨[], .done hskip, rfl, rfl⟩
      | token token q rest =>
        rw [hs] at hstep
        obtain ⟨o, spelling, hskip, hform, hbegins, hposition, rfl, rfl⟩ := hstep
        have hpos := List.length_pos_of_ne_nil hform.ne_nil
        have hbound := hbegins.length_le
        rw [List.length_drop] at hbound
        have hle := hskip.le
        have hbehind := ih (source.length - (o + spelling.length)) (by omega)
          (a := o + spelling.length) (by omega) rfl
        simp only
        cases hrest : scan (.advance .start source (o + spelling.length))
            (source.drop (o + spelling.length)) with
        | error e =>
          rw [hrest] at hbehind
          obtain ⟨places, o', hlaid, hfails⟩ := hbehind
          exact ⟨(o, token.lexeme) :: places, o', .cons hskip hform hbegins hlaid, hfails⟩
        | ok stream =>
          rw [hrest] at hbehind
          obtain ⟨places, hlaid, htokens, hstop⟩ := hbehind
          refine ⟨(o, token.lexeme) :: places, .cons hskip hform hbegins hlaid, ?_, hstop⟩
          have htoken : tokenAt source (o, token.lexeme) = token := by rw [tokenAt, ← hposition]
          rw [List.map_cons, ← htokens, htoken]

/-- Every token of a source lies at an offset at which its lexeme is written, with only ignored text
before it, and so does the end behind the last token; the offsets increase, and each position is
that of its offset. An error lies behind such tokens at an offset at which no lexeme can be read. -/
theorem tokenize_places (source : String) :
    match tokenize source with
    | .ok stream => ∃ places, Laid source.toList 0 places source.toList.length ∧
        (places.map Prod.fst ++ [source.toList.length]).Pairwise (· < ·) ∧
        stream.tokens = places.map (tokenAt source.toList) ∧
        stream.stop = .ofOffset source.toList source.toList.length
    | .error e => ∃ places o, Laid source.toList 0 places o ∧
        (places.map Prod.fst ++ [o]).Pairwise (· < ·) ∧ FailsAt source.toList o e := by
  have hread := scan_at (Nat.zero_le source.toList.length)
  rw [Position.advance_zero, List.drop_zero, ← tokenize] at hread
  cases hs : tokenize source with
  | error e =>
    rw [hs] at hread
    obtain ⟨places, o, hlaid, hfails⟩ := hread
    exact ⟨places, o, hlaid, hlaid.pairwise_lt.1, hfails⟩
  | ok stream =>
    rw [hs] at hread
    obtain ⟨places, hlaid, htokens, hstop⟩ := hread
    exact ⟨places, hlaid, hlaid.pairwise_lt.1, htokens, hstop⟩

/-- A carriage return and a line feed in a row end one line, and so does a lone carriage return. -/
example : Position.ofOffset "a\r\nb\rcd".toList 6 = ⟨3, 2⟩ := by decide

end Lexer

end Safelist.Lexical
