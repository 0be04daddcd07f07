import Safelist.Proofs.Lexical.Spelling

/-!
# What stands where a lexeme is read

A lexeme may be written in many ways, a string in particular. The written forms of each
kind are described here without their readers, and where a lexeme is read one of its
forms stands. So the tokens of a text hold well-formed lexemes.
-/

namespace Safelist.Lexical

namespace Quoted

/-- The spellings of raw text between triple quotes. -/
inductive BlockSpelled : List Char → List Char → Prop
  /-- Nothing spells the empty text. -/
  | nil : BlockSpelled [] []
  /-- Triple quotes are spelled with a backslash. -/
  | quotes {body raw : List Char} (h : BlockSpelled body raw) :
      BlockSpelled ('\\' :: '"' :: '"' :: '"' :: body) ('"' :: '"' :: '"' :: raw)
  /-- Where neither triple quotes nor their spelling begin, a character stands for itself. -/
  | raw {c : Char} {body raw : List Char} (h : BlockSpelled body raw)
      (hclose : ¬['"', '"', '"'] <+: c :: (body ++ ['"', '"', '"']))
      (hescape : ¬['\\', '"', '"', '"'] <+: c :: (body ++ ['"', '"', '"'])) :
      BlockSpelled (c :: body) (c :: raw)

/-- What is read up to closing triple quotes spells the raw text. -/
theorem blockBody_eq_ok {cs raw : List Char} {n : Nat} (h : blockBody cs = .ok (raw, n)) :
    ∃ body rest, cs = body ++ '"' :: '"' :: '"' :: rest ∧ n = body.length + 3 ∧
      BlockSpelled body raw := by
  fun_induction blockBody cs generalizing raw n with
  | case1 => cases h
  | case2 rest =>
    cases h
    exact ⟨[], rest, rfl, rfl, .nil⟩
  | case3 rest ih =>
    cases hb : blockBody rest with
    | error problem => simp [hb, Except.map] at h
    | ok found =>
      obtain ⟨body, after, rfl, hn, hspelled⟩ := ih hb
      simp only [hb, Except.map, Except.ok.injEq, Prod.mk.injEq] at h
      obtain ⟨rfl, rfl⟩ := h
      refine ⟨'\\' :: '"' :: '"' :: '"' :: body, after, rfl, ?_, .quotes hspelled⟩
      simp only [List.length_cons]
      omega
  | case4 c rest hclose hescape ih =>
    cases hb : blockBody rest with
    | error problem => simp [hb, Except.map] at h
    | ok found =>
      obtain ⟨body, after, rfl, hn, hspelled⟩ := ih hb
      simp only [hb, Except.map, Except.ok.injEq, Prod.mk.injEq] at h
      obtain ⟨rfl, rfl⟩ := h
      -- What begins before the closing quotes also begins with all of the text behind.
      have hbegins : ∀ {mark : List Char}, mark <+: c :: (body ++ ['"', '"', '"']) →
          mark <+: c :: (body ++ '"' :: '"' :: '"' :: after) := fun hmark =>
        hmark.trans ⟨after, by simp⟩
      refine ⟨c :: body, after, rfl, by rw [List.length_cons]; omega, .raw hspelled ?_ ?_⟩
      · intro hmark
        obtain ⟨tail, ht⟩ := hbegins hmark
        obtain ⟨hfirst, hrest⟩ := List.cons.inj ht
        exact hclose tail hfirst.symm hrest.symm
      · intro hmark
        obtain ⟨tail, ht⟩ := hbegins hmark
        obtain ⟨hfirst, hrest⟩ := List.cons.inj ht
        exact hescape tail hfirst.symm hrest.symm

end Quoted

/-- The forms in which a lexeme may be written. -/
inductive Lexeme.Written : Lexeme → List Char → Prop
  /-- A mark has one form. -/
  | mark (m : Mark) : Written (.mark m) m.spelling
  /-- A name is written as it is. -/
  | name {text : String} (h : IsName text) : Written (.name text) text.toList
  /-- A number is written as it is. -/
  | int {text : String} (h : IsInt text) : Written (.int text) text.toList
  /-- A number with fraction or exponent is written as it is. -/
  | float {text : String} (h : IsFloat text) : Written (.float text) text.toList
  /-- A string is spelled between double quotes. -/
  | string {spelling text : List Char} (h : Quoted.Spelled spelling text) :
      Written (.string (String.ofList text)) ('"' :: (spelling ++ ['"']))
  /-- The raw text of a block string is spelled between triple quotes. -/
  | block {spelling raw : List Char} (h : Quoted.BlockSpelled spelling raw) :
      Written (.block (String.ofList (Text.BlockString.value raw)))
        ('"' :: '"' :: '"' :: (spelling ++ ['"', '"', '"']))

namespace Lexeme

variable {l : Lexeme} {spelling : List Char}

/-- Every lexeme takes a character. -/
theorem Written.ne_nil (h : l.Written spelling) : spelling ≠ [] := by
  have hnumeral : ∀ {text : String} {n : Number.Numeral}, text.toList = n.text →
      text.toList ≠ [] := by
    intro text n ht
    obtain ⟨c, cs, hn, -⟩ := n.exists_text_eq_cons
    rw [ht, hn]
    exact List.cons_ne_nil c cs
  cases h with
  | mark m => cases m <;> exact List.cons_ne_nil _ _
  | name h =>
    obtain ⟨c, cs, ht, -⟩ := h
    rw [ht]
    exact List.cons_ne_nil c cs
  | int h =>
    obtain ⟨n, -, ht⟩ := h
    exact hnumeral ht
  | float h =>
    obtain ⟨n, -, ht⟩ := h
    exact hnumeral ht
  | string | block => exact List.cons_ne_nil _ _

/-- A numeral is written as it is. -/
theorem written_numeral (n : Number.Numeral) : n.lexeme.Written n.text := by
  have hform : n.lexeme.Written (String.ofList n.text).toList := by
    unfold Number.Numeral.lexeme
    split
    · rename_i h
      exact .int ⟨n, h, String.toList_ofList⟩
    · rename_i h
      exact .float ⟨n, by simpa using h, String.toList_ofList⟩
  rwa [String.toList_ofList] at hform

/-- What can be written is well formed. -/
theorem Written.wellFormed (h : l.Written spelling) : l.WellFormed := by
  cases h with
  | name h | int h | float h => exact h
  | mark | string | block => trivial

end Lexeme

/-- The mark that a character is has that character as its form. -/
theorem Mark.spelling_of_ofChar? {c : Char} {m : Mark} (h : ofChar? c = some m) :
    m.spelling = [c] := by
  unfold ofChar? at h
  split at h <;> cases h <;> rfl

/-- Where a string is read behind a quote, one of its forms stands. -/
theorem Quoted.written_of_scan {cs : List Char} {l : Lexeme} {n : Nat}
    (h : scan cs = .ok (l, n)) :
    ∃ spelling, spelling <+: '"' :: cs ∧ spelling.length = n + 1 ∧ l.Written spelling := by
  by_cases hblock : ['"', '"'] <+: cs
  · obtain ⟨rest, rfl⟩ := hblock
    rw [List.cons_append, List.cons_append, List.nil_append, scan] at h
    cases hb : blockBody rest with
    | error problem => simp [hb, Except.map] at h
    | ok found =>
      obtain ⟨body, after, rfl, hn, hspelled⟩ := blockBody_eq_ok hb
      simp only [hb, Except.map, Except.ok.injEq, Prod.mk.injEq] at h
      obtain ⟨rfl, rfl⟩ := h
      refine ⟨_, ⟨after, ?_⟩, ?_, .block hspelled⟩
      · simp
      · simp [hn]
  · rw [scan_of_not_block hblock] at h
    cases ends cs with
    | closed hspelled after =>
      rw [body_closed hspelled] at h
      cases h
      refine ⟨_, ⟨after, ?_⟩, ?_, .string hspelled⟩
      · simp
      · simp
    | broken hspelled hbad =>
      rw [body_broken hspelled hbad] at h
      cases h

namespace Lexer

/-- Where a lexeme is read, one of its forms stands. -/
theorem written_of_lexeme {c : Char} {rest : List Char} {l : Lexeme} {n : Nat}
    (h : lexeme c rest = .ok (l, n)) :
    ∃ spelling, spelling <+: c :: rest ∧ spelling.length = n + 1 ∧ l.Written spelling := by
  unfold lexeme at h
  split at h
  · rename_i m hmark
    cases h
    have hspelling := Mark.spelling_of_ofChar? hmark
    exact ⟨m.spelling, ⟨rest, by rw [hspelling]; rfl⟩, by rw [hspelling]; rfl, .mark m⟩
  · split at h
    · rename_i hperiod
      subst hperiod
      split at h
      · rename_i tail
        cases h
        exact ⟨Mark.dots.spelling, ⟨tail, rfl⟩, rfl, .mark .dots⟩
      · cases h
    · split at h
      · rename_i hstart
        cases h
        have hname : IsName (String.ofList (c :: rest.takeWhile isNameChar)) :=
          ⟨c, _, String.toList_ofList, hstart, fun d hd => List.mem_takeWhile_imp hd⟩
        have hform := Lexeme.Written.name hname
        rw [String.toList_ofList] at hform
        refine ⟨_, ?_, List.length_cons, hform⟩
        exact List.cons_prefix_cons.mpr ⟨rfl, List.takeWhile_prefix _⟩
      · split at h
        · cases hs : Number.scan (c :: rest) with
          | error problem => simp [hs, Except.map] at h
          | ok found =>
            obtain ⟨numeral, after, hsplit, -, hl, hk⟩ := Number.scan_eq_ok hs
            simp only [hs, Except.map, Except.ok.injEq, Prod.mk.injEq] at h
            obtain ⟨rfl, rfl⟩ := h
            have hform := Lexeme.written_numeral numeral
            have hpos : 0 < numeral.text.length := List.length_pos_of_ne_nil hform.ne_nil
            refine ⟨numeral.text, ⟨after, hsplit.symm⟩, by omega, hl ▸ hform⟩
        · split at h
          · rename_i hquote
            subst hquote
            exact Quoted.written_of_scan h
          · cases h

/-- Every token of a text holds a well-formed lexeme. -/
theorem wellFormed_of_scan {p : Position} {cs : List Char} {stream : TokenStream}
    (h : scan p cs = .ok stream) : ∀ t ∈ stream.tokens, t.lexeme.WellFormed := by
  fun_induction scan p cs generalizing stream with
  | case1 p =>
    cases h
    simp
  | case2 p c rest hi ih => exact ih h
  | case3 p rest n hi =>
    rename_i ih
    exact ih h
  | case4 p c rest hi hn problem hl => cases h
  | case5 p c rest hi hn l n hl ih =>
    cases hs : scan (p.advance (c :: rest) (n + 1)) (rest.drop n) with
    | error problem =>
      rw [hs] at h
      cases h
    | ok tail =>
      rw [hs] at h
      cases h
      intro t ht
      obtain rfl | ht := List.mem_cons.1 ht
      · obtain ⟨spelling, -, -, hform⟩ := written_of_lexeme hl
        exact hform.wellFormed
      · exact ih hs t ht

end Lexer

end Safelist.Lexical
