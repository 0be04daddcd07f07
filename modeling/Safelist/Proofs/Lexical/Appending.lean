import Safelist.Proofs.Lexical.Stepping
import Safelist.Proofs.Lexical.Written

/-!
# Texts read one behind the other

A reader looks ahead by up to three characters, and names, numbers and comments go on as
far as they can. Where a text has been read to its end and a line terminator follows, none
of this reaches across. So two texts with a line feed and any ignored text between them
are read as the one and then the other, and the other is read as it is by itself: what is
found depends on the characters ahead alone, and only positions on what stood before.
-/

namespace Safelist.Lexical

/-- Only the first characters are looked at, and one that follows them. -/
theorem Position.advance_append_of_lt (p : Position) {cs : List Char} {n : Nat}
    (h : n < cs.length) (rest : List Char) : p.advance (cs ++ rest) n = p.advance cs n := by
  induction n generalizing p cs with
  | zero => simp
  | succ n ih =>
    cases cs with
    | nil => simp at h
    | cons c tail =>
      have hn : n < tail.length := by simpa using h
      have hhead : (tail ++ rest).head? = tail.head? := by
        cases tail with
        | nil => simp at hn
        | cons d tail => rfl
      rw [List.cons_append, advance_cons, advance_cons, hhead, ih _ hn]

/-- A line ends at the beginning of a text, unless the text is empty. -/
def StartsWithLineEnd (rest : List Char) : Prop := ∀ c ∈ rest.head?, Lexer.isLineEnd c = true

/-- No lexeme and no comment goes on with a line terminator. -/
theorem StartsWithLineEnd.stops {rest : List Char} (h : StartsWithLineEnd rest) :
    rest.head?.any isNameChar = false ∧ rest.head? ≠ some '"' ∧
      Number.isContinued rest = false ∧
      (rest.head?.any fun c => !Lexer.isLineEnd c) = false := by
  cases rest with
  | nil => simp [Number.isContinued]
  | cons c rest =>
    have hc : c = '\n' ∨ c = '\r' := by simpa [Lexer.isLineEnd] using h c rfl
    rcases hc with rfl | rfl <;> exact ⟨rfl, by simp, rfl, rfl⟩

namespace Quoted

variable {cs rest body raw : List Char} {l : Lexeme} {n : Nat}

/-- Raw text that is spelled between triple quotes is read up to the quotes that close it. -/
theorem blockBody_spelled (h : BlockSpelled body raw) (rest : List Char) :
    blockBody (body ++ '"' :: '"' :: '"' :: rest) = .ok (raw, body.length + 3) := by
  induction h with
  | nil => rfl
  | quotes _ ih =>
    simp only [List.cons_append, blockBody, ih, Except.map]
    rfl
  | @raw c body raw h hclose hescape ih =>
    -- What begins here is told by the characters up to the closing quotes.
    have hwithin : ∀ {mark : List Char}, mark.length ≤ 4 →
        mark <+: c :: (body ++ '"' :: '"' :: '"' :: rest) →
        mark <+: c :: (body ++ ['"', '"', '"']) := by
      intro mark hm hbegins
      have hlong : c :: (body ++ ['"', '"', '"']) <+: c :: (body ++ '"' :: '"' :: '"' :: rest) :=
        ⟨rest, by simp⟩
      exact List.prefix_of_prefix_length_le hbegins hlong (by simp; omega)
    rw [List.cons_append, blockBody.eq_4, ih]
    · rfl
    · rintro tail rfl htail
      exact hclose (hwithin (by decide) ⟨tail, by rw [htail]; rfl⟩)
    · rintro tail rfl htail
      exact hescape (hwithin (by decide) ⟨tail, by rw [htail]; rfl⟩)

/-- A string is read as it is by itself where no quote follows the text. -/
theorem scan_extend (h : scan cs = .ok (l, n)) (hrest : rest.head? ≠ some '"') :
    scan (cs ++ rest) = .ok (l, n) := by
  by_cases hblock : ['"', '"'] <+: cs
  · obtain ⟨tail, rfl⟩ := hblock
    rw [List.cons_append, List.cons_append, List.nil_append, scan] at h
    cases hb : blockBody tail with
    | error problem => simp [hb, Except.map] at h
    | ok found =>
      obtain ⟨body, after, rfl, hn, hspelled⟩ := blockBody_eq_ok hb
      have hfound : found = (found.1, body.length + 3) := by rw [← hn]
      rw [hb, hfound] at h
      simp only [List.cons_append, List.nil_append, List.append_assoc]
      rw [scan, blockBody_spelled hspelled]
      exact h
  · rw [scan_of_not_block hblock] at h
    cases ends cs with
    | @closed spelling text hspelled after =>
      have hopen : ¬['"', '"'] <+: spelling ++ '"' :: (after ++ rest) := by
        refine fun hbegins => hblock ?_
        have hlong : spelling ++ '"' :: after <+: spelling ++ '"' :: (after ++ rest) :=
          ⟨rest, by simp⟩
        by_cases hlength : 2 ≤ (spelling ++ '"' :: after).length
        · exact List.prefix_of_prefix_length_le hbegins hlong hlength
        · -- The text is a single quote, which closes an empty string.
          have hshort : spelling = [] ∧ after = [] := by
            simp only [List.length_append, List.length_cons] at hlength
            exact ⟨List.length_eq_zero_iff.mp (by omega), List.length_eq_zero_iff.mp (by omega)⟩
          obtain ⟨rfl, rfl⟩ := hshort
          obtain ⟨tail, htail⟩ := hbegins
          have hnext : ['"'] ++ tail = rest := (List.cons.inj htail).2
          exact absurd (by rw [← hnext]; rfl) hrest
      rw [body_closed hspelled] at h
      rw [List.append_assoc, List.cons_append, scan_of_not_block hopen, body_closed hspelled]
      exact h
    | broken hspelled hbad =>
      rw [body_broken hspelled hbad] at h
      cases h

end Quoted

/-- A number is read as it is by itself where nothing follows that continues it. -/
theorem Number.scan_extend {cs rest : List Char} {l : Lexeme} {n : Nat}
    (h : scan cs = .ok (l, n)) (hrest : isContinued rest = false) :
    scan (cs ++ rest) = .ok (l, n) := by
  obtain ⟨numeral, after, rfl, hafter, rfl, rfl⟩ := scan_eq_ok h
  rw [List.append_assoc]
  refine scan_append numeral ?_
  cases after with
  | nil => exact hrest
  | cons c after => exact hafter

/-- A reading behind tokens that were read before. -/
def TokenStream.behind (tokens : List Token) (stream : TokenStream) : TokenStream :=
  { stream with tokens := tokens ++ stream.tokens }

/-- The lexemes of the tokens in order. -/
def TokenStream.lexemes (stream : TokenStream) : List Lexeme := stream.tokens.map Token.lexeme

namespace Lexer

variable {c : Char} {cs rest : List Char} {l : Lexeme} {n : Nat}

/-- A lexeme is read as it is by itself where a line ends behind the text. -/
theorem lexeme_extend (h : lexeme c cs = .ok (l, n)) (hrest : StartsWithLineEnd rest) :
    lexeme c (cs ++ rest) = .ok (l, n) := by
  obtain ⟨hname, hquote, hnumber, -⟩ := hrest.stops
  unfold lexeme at h ⊢
  split at h
  · exact h
  · split at h
    · rename_i hperiod
      rw [if_pos hperiod]
      split at h
      · exact h
      · cases h
    · rename_i hperiod
      rw [if_neg hperiod]
      split at h
      · rename_i hstart
        rw [if_pos hstart, takeWhile_append_of_head? hname]
        exact h
      · rename_i hstart
        rw [if_neg hstart]
        split at h
        · rename_i hsign
          rw [if_pos hsign]
          cases hs : Number.scan (c :: cs) with
          | error problem => simp [hs, Except.map] at h
          | ok found =>
            rw [← List.cons_append, Number.scan_extend hs hnumber]
            rw [hs] at h
            exact h
        · rename_i hsign
          rw [if_neg hsign]
          split at h
          · rename_i hopen
            rw [if_pos hopen]
            exact Quoted.scan_extend h hquote
          · cases h

/-- A comment ends where a line ends behind the text. -/
theorem commentLength_append (hrest : StartsWithLineEnd rest) (cs : List Char) :
    commentLength (cs ++ rest) = commentLength cs := by
  rw [commentLength, takeWhile_append_of_head? hrest.stops.2.2.2, commentLength]

/-- A reading that goes on behind a part of a text goes on behind the whole of it, where it does so
behind the rest. The positions it starts from may differ only where nothing is left to read. -/
theorem scan_drop_append {p : Position} {tail : TokenStream} (hn : n ≤ cs.length)
    (h : scan (p.advance (c :: cs) (n + 1)) (cs.drop n) = .ok tail)
    (ih : scan (p.advance (c :: cs) (n + 1)) (cs.drop n ++ rest) =
      (scan ((p.advance (c :: cs) (n + 1)).advance (cs.drop n ++ rest) (cs.drop n).length)
        rest).map (TokenStream.behind tail.tokens)) :
    scan (p.advance (c :: (cs ++ rest)) (n + 1)) ((cs ++ rest).drop n) =
      (scan (p.advance (c :: (cs ++ rest)) (cs.length + 1)) rest).map
        (TokenStream.behind tail.tokens) := by
  have hdrop : (cs ++ rest).drop n = cs.drop n ++ rest := List.drop_append_of_le_length hn
  obtain hlt | rfl := Nat.lt_or_eq_of_le hn
  · have hbegin : p.advance (c :: (cs ++ rest)) (n + 1) = p.advance (c :: cs) (n + 1) := by
      rw [← List.cons_append]
      exact p.advance_append_of_lt (by simpa using hlt) rest
    have hend := p.advance_advance (c :: (cs ++ rest)) (n + 1) (cs.length - n)
    rw [List.drop_succ_cons, hdrop, hbegin, ← List.length_drop] at hend
    rw [hdrop, hbegin, ih, hend, List.length_drop, Nat.add_right_comm, Nat.add_sub_cancel' hn]
  · rw [List.drop_length, scan] at h
    cases h
    rw [List.drop_left]
    cases scan _ rest <;> rfl

/-- A text that has been read is read in the same way where a line ends behind it, and then what
follows it is read. -/
theorem scan_append {p : Position} {first : TokenStream} (h : scan p cs = .ok first)
    (hrest : StartsWithLineEnd rest) : scan p (cs ++ rest) =
      (scan (p.advance (cs ++ rest) cs.length) rest).map (TokenStream.behind first.tokens) := by
  fun_induction scan p cs generalizing first with
  | case1 p =>
    cases h
    rw [List.nil_append, List.length_nil, Position.advance_zero]
    cases scan p rest <;> rfl
  | case2 p c cs hi ih =>
    have hnext : p.past c cs.head? = p.advance (c :: cs) (0 + 1) := by simp
    rw [hnext] at h ih
    have hbehind := scan_drop_append (Nat.zero_le _) h (ih h)
    rw [Position.advance_cons p c (cs ++ rest) 0, Position.advance_zero, List.drop_zero] at hbehind
    rw [List.cons_append, scan, if_pos hi]
    exact hbehind
  | case3 p cs n hi =>
    rename_i ih
    have hn : n ≤ cs.length := (List.takeWhile_prefix _).length_le
    rw [List.cons_append, scan, if_neg hi, if_pos rfl, commentLength_append hrest]
    exact scan_drop_append hn h (ih h)
  | case4 p c cs hi hn problem hl => cases h
  | case5 p c cs hi hn l n hl ih =>
    cases hs : scan (p.advance (c :: cs) (n + 1)) (cs.drop n) with
    | error e =>
      rw [hs] at h
      cases h
    | ok tail =>
      obtain ⟨spelling, hbegins, hspelling, -⟩ := written_of_lexeme hl
      have hlength : n ≤ cs.length := by
        have hle := hbegins.length_le
        rw [List.length_cons] at hle
        omega
      rw [hs] at h
      cases h
      rw [List.cons_append, scan, if_neg hi, if_neg hn, lexeme_extend hl hrest]
      simp only [scan_drop_append hlength hs (ih hs), List.length_cons]
      cases scan (p.advance (c :: (cs ++ rest)) (cs.length + 1)) rest <;> rfl

/-- Ignored text in which every comment is ended by a line terminator. -/
inductive IgnoredText : List Char → Prop
  /-- There is none. -/
  | nil : IgnoredText []
  /-- An ignored character. -/
  | ignored {c : Char} {gap : List Char} (hc : isIgnored c = true) (h : IgnoredText gap) :
      IgnoredText (c :: gap)
  /-- A comment with the line terminator that ends it. -/
  | comment {text gap : List Char} {e : Char} (htext : ∀ c ∈ text, isLineEnd c = false)
      (he : isLineEnd e = true) (h : IgnoredText gap) : IgnoredText ('#' :: (text ++ e :: gap))

/-- Ignored text is passed over. -/
theorem scan_ignoredText {gap : List Char} (h : IgnoredText gap) (p : Position)
    (rest : List Char) :
    scan p (gap ++ rest) = scan (p.advance (gap ++ rest) gap.length) rest := by
  induction h generalizing p with
  | nil => simp
  | @ignored c gap hc _ ih =>
    rw [List.cons_append, scan, if_pos hc, ih]
    rfl
  | @comment text gap e htext he _ ih =>
    have hlength : commentLength (text ++ e :: (gap ++ rest)) = text.length := by
      have hall : ∀ c ∈ text, (!isLineEnd c) = true := fun c hc => by simp [htext c hc]
      rw [commentLength, List.takeWhile_append_of_pos hall]
      simp [he]
    have hend : isIgnored e = true := by
      have hcases : e = '\n' ∨ e = '\r' := by simpa [isLineEnd] using he
      rcases hcases with rfl | rfl <;> rfl
    have hwhole : ('#' :: (text ++ e :: gap)) ++ rest = '#' :: (text ++ e :: (gap ++ rest)) := by
      simp
    have hbehind := p.advance_advance ('#' :: (text ++ e :: (gap ++ rest))) (text.length + 1)
      (gap.length + 1)
    rw [List.drop_succ_cons, List.drop_left] at hbehind
    rw [hwhole, scan, if_neg (by decide), if_pos rfl]
    simp only [hlength]
    rw [List.drop_left, scan, if_pos hend, ih, ← Position.advance_cons, hbehind]
    congr 2
    simp
    omega

/-- Two readings find the same lexemes or the same problem. Their positions may differ. -/
def SameFindings : Except ReadError TokenStream → Except ReadError TokenStream → Prop
  | .ok s, .ok t => s.lexemes = t.lexemes
  | .error e, .error e' =>
    ∃ p q problem, e = .malformed p problem ∧ e' = .malformed q problem
  | _, _ => False

/-- What is found in a text does not depend on where it begins. -/
theorem sameFindings_scan (p q : Position) (cs : List Char) :
    SameFindings (scan p cs) (scan q cs) := by
  fun_induction scan p cs generalizing q with
  | case1 p =>
    rw [scan]
    rfl
  | case2 p c cs hi ih =>
    rw [scan.eq_2 q, if_pos hi]
    exact ih _
  | case3 p cs n hi =>
    rename_i ih
    rw [scan.eq_2 q, if_neg hi, if_pos rfl]
    exact ih _
  | case4 p c cs hi hn problem hl =>
    rw [scan, if_neg hi, if_neg hn, hl]
    exact ⟨p, q, problem, rfl, rfl⟩
  | case5 p c cs hi hn l n hl ih =>
    have hbehind := ih (q.advance (c :: cs) (n + 1))
    rw [scan.eq_2 q, if_neg hi, if_neg hn, hl]
    simp only
    cases hs : scan (p.advance (c :: cs) (n + 1)) (cs.drop n) <;>
      cases ht : scan (q.advance (c :: cs) (n + 1)) (cs.drop n) <;>
        rw [hs, ht] at hbehind
    · exact hbehind
    · exact hbehind
    · exact hbehind
    · exact congrArg (l :: ·) hbehind

/-- A text that can be read, then a line feed and ignored text, then another text: reading comes to
the tokens of the first and behind them what is found in the other. -/
theorem tokenize_behind {a g : String} {first : TokenStream} (ha : tokenize a = .ok first)
    (hg : IgnoredText g.toList) (b : String) : ∃ p,
      tokenize (a ++ "\n" ++ g ++ b) =
        (scan p b.toList).map (TokenStream.behind first.tokens) := by
  have htext : (a ++ "\n" ++ g ++ b).toList =
      a.toList ++ ('\n' :: g.toList ++ b.toList) := by simp
  have hgap : IgnoredText ('\n' :: g.toList) := .ignored (by decide) hg
  have hline : StartsWithLineEnd ('\n' :: g.toList ++ b.toList) := by
    rintro c ⟨⟩
    decide
  rw [tokenize, htext, scan_append ha hline, scan_ignoredText hgap]
  exact ⟨_, rfl⟩

/-- Where a text can be read, it can be read in front of another one exactly if that one can be read
by itself, with a line feed and any ignored text between the two. The tokens of the first text come
first, at the places they had, and behind them come the lexemes of the other. Where the other text
cannot be read, the same problem is found in the whole. -/
theorem tokenize_one_behind_other {a g : String} {first : TokenStream}
    (ha : tokenize a = .ok first) (hg : IgnoredText g.toList) (b : String) :
    ((∃ whole, tokenize (a ++ "\n" ++ g ++ b) = .ok whole) ↔ ∃ last, tokenize b = .ok last) ∧
    (∀ whole last, tokenize (a ++ "\n" ++ g ++ b) = .ok whole → tokenize b = .ok last →
      first.tokens <+: whole.tokens ∧ whole.lexemes = first.lexemes ++ last.lexemes) ∧
    ∀ e, tokenize b = .error e → ∃ p q problem, e = .malformed p problem ∧
      tokenize (a ++ "\n" ++ g ++ b) = .error (.malformed q problem) := by
  obtain ⟨p, hwhole⟩ := tokenize_behind ha hg b
  have hsame := sameFindings_scan .start p b.toList
  rw [hwhole]
  rw [← tokenize] at hsame
  cases hb : tokenize b with
  | error e =>
    cases hs : scan p b.toList with
    | error e' =>
      rw [hb, hs] at hsame
      obtain ⟨q, q', problem, rfl, rfl⟩ := hsame
      refine ⟨by simp [Except.map], by simp, ?_⟩
      rintro e ⟨⟩
      exact ⟨q, q', problem, rfl, rfl⟩
    | ok tail =>
      rw [hb, hs] at hsame
      exact hsame.elim
  | ok last =>
    cases hs : scan p b.toList with
    | error e' =>
      rw [hb, hs] at hsame
      exact hsame.elim
    | ok tail =>
      rw [hb, hs] at hsame
      refine ⟨iff_of_true ⟨_, rfl⟩ ⟨_, rfl⟩, ?_, fun e h => by cases h⟩
      rintro whole last ⟨⟩ ⟨⟩
      refine ⟨List.prefix_append _ _, ?_⟩
      have hlexemes : tail.lexemes = last.lexemes := Eq.symm hsame
      rw [TokenStream.lexemes, TokenStream.behind, List.map_append, ← hlexemes]
      rfl

/-- A comment and an empty string at the end of one text, a comment and a byte order mark between,
and a block string in the other: nothing reaches across. A quote that is not closed is found in the
whole as it is found by itself. -/
theorem tokenize_one_behind_other_comments :
    (∃ whole, tokenize ("a\"\"#b" ++ "\n" ++ "#\"\r,\uFEFF" ++ "\"\"\"c\"\"\"") = .ok whole ∧
      whole.lexemes = [.name "a", .string "", .block "c"]) ∧
    ∃ q, tokenize ("a\"\"#b" ++ "\n" ++ "#\"\r,\uFEFF" ++ "\"c") =
      .error (.malformed q .unterminatedString) := by
  have ha : tokenize "a\"\"#b" = .ok ⟨[⟨.name "a", ⟨1, 1⟩⟩, ⟨.string "", ⟨1, 2⟩⟩], ⟨1, 6⟩⟩ := by
    decide +kernel
  have hg : IgnoredText "#\"\r,\uFEFF".toList :=
    @IgnoredText.comment ['"'] _ _ (by simp [isLineEnd]) (by decide)
      (.ignored (by decide) (.ignored (by decide) .nil))
  have hb : tokenize "\"\"\"c\"\"\"" = .ok ⟨[⟨.block "c", ⟨1, 1⟩⟩], ⟨1, 8⟩⟩ := by decide +kernel
  have hc : tokenize "\"c" = .error (.malformed ⟨1, 1⟩ .unterminatedString) := by decide +kernel
  constructor
  · obtain ⟨whole, hw⟩ := (tokenize_one_behind_other ha hg _).1.mpr ⟨_, hb⟩
    exact ⟨whole, hw, ((tokenize_one_behind_other ha hg _).2.1 _ _ hw hb).2⟩
  · obtain ⟨p, q, problem, he, hq⟩ := (tokenize_one_behind_other ha hg _).2.2 _ hc
    cases he
    exact ⟨q, hq⟩

end Lexer

end Safelist.Lexical
