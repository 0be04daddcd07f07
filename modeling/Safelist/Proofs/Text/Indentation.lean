import Mathlib.Data.List.Chain
import Mathlib.Data.List.DropRight
import Mathlib.Order.Bounds.Defs
import Safelist.Text.BlockString

/-!
# Block strings depend on relative indentation

A text is a first line and further lines, each behind the terminator that ends the line
before it. The value of a block string is told by its lines: how they are terminated does
not matter, and neither does indentation that all lines after the first have in common.
What is left of each line is the line without that indentation, between the first and the
last line that is not blank.
-/

namespace Safelist.Text.BlockString

/-- The ways to end a line. -/
inductive Terminator where
  /-- A line feed. -/
  | lineFeed
  /-- A carriage return. -/
  | carriageReturn
  /-- A carriage return and a line feed. -/
  | pair
deriving DecidableEq

/-- The characters of a line terminator. -/
def Terminator.spelling : Terminator → List Char
  | .lineFeed => ['\n']
  | .carriageReturn => ['\r']
  | .pair => ['\r', '\n']

/-- The lines of a text, with the terminators between them. -/
structure Lined where
  /-- The first line. -/
  first : List Char
  /-- Every further line, with the terminator of the line before it. -/
  more : List (Terminator × List Char)

namespace Lined

/-- The characters of a text. -/
def text (t : Lined) : List Char := t.first ++ t.more.flatMap fun m => m.1.spelling ++ m.2

/-- The lines after the first. -/
def rest (t : Lined) : List (List Char) := t.more.map Prod.snd

/-- All lines. -/
def lines (t : Lined) : List (List Char) := t.first :: t.rest

/-- A text with the same characters in front of every line but the first. -/
def indent (w : List Char) (t : Lined) : Lined :=
  { t with more := t.more.map fun m => (m.1, w ++ m.2) }

/-- The lines are those of the text: no terminator stands in a line, and none is merged with the
next one. -/
structure Proper (t : Lined) : Prop where
  /-- Lines hold no terminators. -/
  clean : ∀ line ∈ t.lines, ∀ c ∈ line, c ≠ '\n' ∧ c ≠ '\r'
  /-- No carriage return stands directly before a line feed. -/
  apart : t.more.IsChain fun m m' =>
    ¬(m.1 = .carriageReturn ∧ m.2 = [] ∧ m'.1 = .lineFeed)

end Lined

section Lines

variable {line rest : List Char} {c : Char}

/-- A character that ends no line belongs to the first line. -/
theorem lines_cons (hfeed : c ≠ '\n') (hreturn : c ≠ '\r') (rest : List Char) :
    lines (c :: rest) = (c :: (lines rest).head (lines_ne_nil rest)) :: (lines rest).tail := by
  rw [lines.eq_5 c rest (by simp [hreturn]) hreturn hfeed]
  split
  · rename_i h
    exact absurd h (lines_ne_nil rest)
  · rename_i h
    simp [h]

/-- So does a whole line in front. -/
theorem lines_append (hline : ∀ c ∈ line, c ≠ '\n' ∧ c ≠ '\r') (rest : List Char) :
    lines (line ++ rest) =
      (line ++ (lines rest).head (lines_ne_nil rest)) :: (lines rest).tail := by
  induction line with
  | nil => simp
  | cons c line ih =>
    obtain ⟨hc, hline⟩ := List.forall_mem_cons.mp hline
    rw [List.cons_append, lines_cons hc.1 hc.2]
    simp [ih hline]

/-- A terminator that is not merged with what follows ends an empty line. -/
theorem lines_terminator (e : Terminator) (h : e = .carriageReturn → rest.head? ≠ some '\n') :
    lines (e.spelling ++ rest) = [] :: lines rest := by
  cases e with
  | lineFeed => rfl
  | pair => rfl
  | carriageReturn =>
    refine lines.eq_3 rest ?_
    rintro tail rfl
    exact h rfl rfl

end Lines

namespace Lined

variable {t t' : Lined}

/-- Behind the first line stands a text of the further lines. -/
theorem text_cons (first : List Char) (m : Terminator × List Char)
    (more : List (Terminator × List Char)) :
    text ⟨first, m :: more⟩ = first ++ (m.1.spelling ++ text ⟨m.2, more⟩) := by
  simp [text]

theorem Proper.tail {first : List Char} {m : Terminator × List Char}
    {more : List (Terminator × List Char)} (h : Proper ⟨first, m :: more⟩) :
    Proper ⟨m.2, more⟩ :=
  ⟨(List.forall_mem_cons.mp h.clean).2, List.IsChain.tail h.apart⟩

/-- A terminator is not merged with the text behind it. -/
theorem Proper.head?_text_ne {first : List Char} {m : Terminator × List Char}
    {more : List (Terminator × List Char)} (h : Proper ⟨first, m :: more⟩)
    (hm : m.1 = .carriageReturn) : (text ⟨m.2, more⟩).head? ≠ some '\n' := by
  obtain ⟨e, line⟩ := m
  cases line with
  | cons c line =>
    rintro ⟨⟩
    exact (h.tail.clean _ List.mem_cons_self _ List.mem_cons_self).1 rfl
  | nil =>
    cases more with
    | nil => simp [text]
    | cons m' more =>
      obtain ⟨e', line'⟩ := m'
      have hapart := (List.isChain_cons_cons.mp h.apart).1
      cases e' with
      | lineFeed => exact absurd ⟨hm, rfl, rfl⟩ hapart
      | carriageReturn => simp [text, Terminator.spelling]
      | pair => simp [text, Terminator.spelling]

/-- A text is split into its lines. -/
theorem Proper.lines_text (h : t.Proper) : BlockString.lines t.text = t.lines := by
  obtain ⟨first, more⟩ := t
  induction more generalizing first with
  | nil =>
    have hfirst := (List.forall_mem_cons.mp h.clean).1
    have htext : text ⟨first, []⟩ = first ++ [] := by simp [text]
    rw [htext, lines_append hfirst]
    simp [BlockString.lines, lines, rest]
  | cons m more ih =>
    have hfirst := (List.forall_mem_cons.mp h.clean).1
    rw [text_cons, lines_append hfirst]
    simp [lines_terminator m.1 h.head?_text_ne, ih _ h.tail, lines, rest]

/-- Every text has lines. -/
theorem exists_proper (raw : List Char) : ∃ t : Lined, t.Proper ∧ t.text = raw := by
  have hbreak : ∀ (e : Terminator) {t : Lined}, t.Proper →
      (e = .carriageReturn → t.text.head? ≠ some '\n') → Proper ⟨[], (e, t.first) :: t.more⟩ := by
    intro e t ht hmerge
    refine ⟨List.forall_mem_cons.mpr ⟨by simp, ht.clean⟩, ?_⟩
    obtain ⟨first, more⟩ := t
    cases more with
    | nil => exact List.isChain_singleton _
    | cons m more =>
      refine List.isChain_cons_cons.mpr ⟨?_, ht.apart⟩
      rintro ⟨he, rfl, hm⟩
      refine hmerge he ?_
      simp [text, hm, Terminator.spelling]
  have hplain : ∀ (c : Char) {t : Lined}, c ≠ '\n' → c ≠ '\r' → t.Proper →
      Proper ⟨c :: t.first, t.more⟩ := by
    intro c t hfeed hreturn ht
    obtain ⟨hfirst, hrest⟩ := List.forall_mem_cons.mp ht.clean
    exact ⟨List.forall_mem_cons.mpr ⟨List.forall_mem_cons.mpr ⟨⟨hfeed, hreturn⟩, hfirst⟩, hrest⟩,
      ht.apart⟩
  fun_induction BlockString.lines raw with
  | case1 => exact ⟨⟨[], []⟩, ⟨by simp [lines, rest], .nil⟩, rfl⟩
  | case2 rest ih =>
    obtain ⟨t, ht, rfl⟩ := ih
    exact ⟨_, hbreak .pair ht (by simp), text_cons _ _ _⟩
  | case3 rest hrest ih =>
    obtain ⟨t, ht, rfl⟩ := ih
    refine ⟨_, hbreak .carriageReturn ht fun _ hhead => ?_, text_cons _ _ _⟩
    obtain ⟨tail, htail⟩ := List.head?_eq_some_iff.mp hhead
    exact hrest tail htail
  | case4 rest ih =>
    obtain ⟨t, ht, rfl⟩ := ih
    exact ⟨_, hbreak .lineFeed ht (by simp), text_cons _ _ _⟩
  | case5 c rest _ hreturn hfeed _ ih =>
    obtain ⟨t, ht, rfl⟩ := ih
    exact ⟨_, hplain c hfeed hreturn ht, rfl⟩
  | case6 c rest _ hreturn hfeed _ _ _ ih =>
    obtain ⟨t, ht, rfl⟩ := ih
    exact ⟨_, hplain c hfeed hreturn ht, rfl⟩

end Lined

section Trimming

variable {α : Type}

/-- A list is cut at both ends as far as something holds there. -/
theorem exists_trimmed (p : α → Bool) (xs : List α) : ∃ before kept after,
    xs = before ++ kept ++ after ∧ (∀ x ∈ before ++ after, p x = true) ∧
      (∀ x ∈ kept.head?, p x = false) ∧ ∀ x ∈ kept.getLast?, p x = false := by
  refine ⟨xs.takeWhile p, (xs.dropWhile p).rdropWhile p, (xs.dropWhile p).rtakeWhile p, ?_, ?_, ?_,
    ?_⟩
  · rw [List.append_assoc, List.rdropWhile_append_rtakeWhile, List.takeWhile_append_dropWhile]
  · exact List.forall_mem_append.mpr
      ⟨fun x => List.mem_takeWhile_imp, fun x => List.mem_rtakeWhile_imp⟩
  · intro x hx
    obtain ⟨tail, htail⟩ := List.head?_eq_some_iff.mp hx
    obtain ⟨after, hafter⟩ := List.rdropWhile_prefix p (l := xs.dropWhile p)
    have hhead := xs.head?_dropWhile_not p
    rw [← hafter, htail] at hhead
    simpa using hhead
  · intro x hx
    have hne : (xs.dropWhile p).rdropWhile p ≠ [] := by
      intro hnil
      simp [hnil] at hx
    have hlast := List.rdropWhile_last_not p _ hne
    rw [List.getLast?_eq_some_getLast hne] at hx
    obtain rfl := Option.some.inj hx
    simpa using hlast

variable {before kept after : List (List Char)}

/-- Blank lines are dropped at both ends, up to lines that are not blank. -/
theorem trimBlankLines_append (hblank : ∀ line ∈ before ++ after, isBlankLine line = true)
    (hfirst : ∀ line ∈ kept.head?, isBlankLine line = false)
    (hlast : ∀ line ∈ kept.getLast?, isBlankLine line = false) :
    trimBlankLines (before ++ kept ++ after) = kept := by
  obtain ⟨hbefore, hafter⟩ := List.forall_mem_append.mp hblank
  rw [trimBlankLines, List.append_assoc, List.dropWhile_append_of_pos hbefore]
  by_cases hkept : kept = []
  · subst hkept
    rw [List.nil_append, List.dropWhile_eq_nil_iff.mpr hafter]
    rfl
  · obtain ⟨first, tail, rfl⟩ := List.exists_cons_of_ne_nil hkept
    have hstart : (first :: tail ++ after).dropWhile isBlankLine = first :: tail ++ after := by
      rw [List.cons_append, List.dropWhile_cons, if_neg (by simp [hfirst first rfl])]
    have hend : ((first :: tail).reverse).dropWhile isBlankLine = (first :: tail).reverse := by
      refine List.dropWhile_eq_self_iff.mpr fun hpos => ?_
      rw [List.getElem_zero, List.head_reverse]
      simpa using hlast _ (List.getLast?_eq_some_getLast hkept)
    rw [hstart, List.reverse_append,
      List.dropWhile_append_of_pos fun line hm => hafter line (List.mem_reverse.mp hm), hend,
      List.reverse_reverse]

/-- A line that is not blank is kept. -/
theorem trimBlankLines_ne_nil {ls : List (List Char)} (h : ∃ line ∈ ls, isBlankLine line = false) :
    trimBlankLines ls ≠ [] := by
  obtain ⟨before, kept, after, rfl, hblank, hfirst, hlast⟩ := exists_trimmed isBlankLine ls
  rw [trimBlankLines_append hblank hfirst hlast]
  rintro rfl
  obtain ⟨line, hm, hline⟩ := h
  rw [hblank line (by simpa using hm)] at hline
  cases hline

/-- Behind lines that are all blank nothing is kept. -/
theorem trimBlankLines_cons_of_blank {rest : List (List Char)} (first : List Char)
    (h : ∀ line ∈ rest, isBlankLine line = true) :
    trimBlankLines (first :: rest) = trimBlankLines [first] := by
  cases hfirst : isBlankLine first with
  | true =>
    have hall : ∀ line ∈ first :: rest, isBlankLine line = true :=
      List.forall_mem_cons.mpr ⟨hfirst, h⟩
    have hnone : trimBlankLines (first :: rest ++ [] ++ []) = [] :=
      trimBlankLines_append (by simpa using hall) (by simp) (by simp)
    rw [List.append_nil, List.append_nil] at hnone
    rw [hnone]
    simp [trimBlankLines, hfirst]
  | false =>
    have hone : trimBlankLines ([] ++ [first] ++ rest) = [first] :=
      trimBlankLines_append (by simpa using h) (by simpa using hfirst) (by simpa using hfirst)
    rw [List.nil_append, List.singleton_append] at hone
    rw [hone]
    simp [trimBlankLines, hfirst]

end Trimming

section Indent

variable {w line : List Char} {rest : List (List Char)} {n : Nat}

/-- Lines that are not blank have a least indentation. -/
theorem commonIndent_eq_some_iff : commonIndent rest = some n ↔
    IsLeast {k | ∃ line ∈ rest, isBlankLine line = false ∧ indentation line = k} n := by
  have hmem : ∀ k, k ∈ (rest.filter fun line => !isBlankLine line).map indentation ↔
      ∃ line ∈ rest, isBlankLine line = false ∧ indentation line = k := by simp [and_assoc]
  rw [commonIndent, List.min?_eq_some_iff, hmem]
  exact and_congr_right fun _ => forall_congr' fun k => imp_congr_left (hmem k)

theorem commonIndent_eq_none_iff :
    commonIndent rest = none ↔ ∀ line ∈ rest, isBlankLine line = true := by
  simp [commonIndent, List.min?_eq_none_iff, List.filter_eq_nil_iff]

/-- Indentation in front of a line leaves it blank or not blank. -/
theorem isBlankLine_append (hw : isBlankLine w = true) (line : List Char) :
    isBlankLine (w ++ line) = isBlankLine line := by
  rw [isBlankLine, List.all_append, ← isBlankLine, hw, Bool.true_and, isBlankLine]

theorem indentation_append (hw : isBlankLine w = true) (line : List Char) :
    indentation (w ++ line) = w.length + indentation line := by
  rw [indentation, List.takeWhile_append_of_pos (List.all_eq_true.mp hw), List.length_append,
    indentation]

/-- Indentation in front of all lines is indentation that they share. -/
theorem commonIndent_map_append (hw : isBlankLine w = true) (h : commonIndent rest = some n) :
    commonIndent (rest.map (w ++ ·)) = some (w.length + n) := by
  obtain ⟨⟨line, hm, hline, hn⟩, hleast⟩ := commonIndent_eq_some_iff.mp h
  refine commonIndent_eq_some_iff.mpr ⟨⟨w ++ line, List.mem_map_of_mem hm, ?_, ?_⟩, ?_⟩
  · rwa [isBlankLine_append hw]
  · rw [indentation_append hw, hn]
  · rintro k ⟨line', hm', hline', rfl⟩
    obtain ⟨inner, hinner, rfl⟩ := List.mem_map.mp hm'
    rw [isBlankLine_append hw] at hline'
    rw [indentation_append hw]
    exact Nat.add_le_add_left (hleast ⟨inner, hinner, hline', rfl⟩) _

/-- What is taken off a line is indentation, and the rest of it is blank only if the line is. -/
theorem isBlankLine_take_drop (h : commonIndent rest = some n) (hm : line ∈ rest) :
    isBlankLine (line.take n) = true ∧ isBlankLine (line.drop n) = isBlankLine line := by
  have htake : isBlankLine (line.take n) = true := by
    cases hline : isBlankLine line with
    | true =>
      exact List.all_eq_true.mpr fun c hc =>
        List.all_eq_true.mp hline c (List.mem_of_mem_take hc)
    | false =>
      have hle : n ≤ indentation line := (commonIndent_eq_some_iff.mp h).2 ⟨line, hm, hline, rfl⟩
      have hbegin : line.take n <+: line.takeWhile isIndent :=
        List.prefix_of_prefix_length_le (List.take_prefix n line) (List.takeWhile_prefix _)
          ((List.length_take_le n line).trans hle)
      exact List.all_eq_true.mpr fun c hc => List.mem_takeWhile_imp (hbegin.subset hc)
  refine ⟨htake, ?_⟩
  rw [← isBlankLine_append htake, List.take_append_drop]

/-- Indentation in front of all lines but the first changes nothing about what is kept. -/
theorem trimBlankLines_dedent_map (hw : isBlankLine w = true) (first : List Char)
    (rest : List (List Char)) :
    trimBlankLines (dedent (first :: rest.map (w ++ ·))) =
      trimBlankLines (dedent (first :: rest)) := by
  cases h : commonIndent rest with
  | some n =>
    have hcut : ∀ line : List Char, (w ++ line).drop (w.length + n) = line.drop n := by
      intro line
      rw [← List.drop_drop, List.drop_left]
    simp [dedent, h, commonIndent_map_append hw h, hcut, Function.comp_def]
  | none =>
    have hblank := commonIndent_eq_none_iff.mp h
    have hblank' : ∀ line ∈ rest.map (w ++ ·), isBlankLine line = true := by
      refine List.forall_mem_map.mpr fun line hm => ?_
      rw [isBlankLine_append hw, hblank line hm]
    have hnone := commonIndent_eq_none_iff.mpr hblank'
    simp only [dedent, h, hnone]
    rw [trimBlankLines_cons_of_blank first hblank, trimBlankLines_cons_of_blank first hblank']

end Indent

section Value

variable {t t' : Lined} {w : List Char}

/-- Lines with line feeds between them are a text. -/
theorem intercalate_eq_text (first : List Char) (rest : List (List Char)) :
    List.intercalate ['\n'] (first :: rest) = Lined.text ⟨first, rest.map (.lineFeed, ·)⟩ := by
  induction rest generalizing first with
  | nil => simp [Lined.text]
  | cons line rest ih =>
    rw [List.intercalate_cons_cons, ih, List.map_cons, Lined.text_cons, List.append_assoc]
    rfl

/-- They are read back as these lines. -/
theorem lines_intercalate {ls : List (List Char)} (hne : ls ≠ [])
    (hclean : ∀ line ∈ ls, ∀ c ∈ line, c ≠ '\n' ∧ c ≠ '\r') :
    lines (List.intercalate ['\n'] ls) = ls := by
  obtain ⟨first, rest, rfl⟩ := List.exists_cons_of_ne_nil hne
  have hlines : Lined.lines ⟨first, rest.map (.lineFeed, ·)⟩ = first :: rest := by
    simp [Lined.lines, Lined.rest, Function.comp_def]
  have hproper : Lined.Proper ⟨first, rest.map (.lineFeed, ·)⟩ := by
    refine ⟨by rwa [hlines], ?_⟩
    refine (List.isChain_map _).mpr (List.Pairwise.isChain ?_)
    exact List.pairwise_of_forall fun _ _ => by simp
  rw [intercalate_eq_text, hproper.lines_text, hlines]

/-- Of the lines that are kept, each is one of the lines or the end of one. -/
theorem exists_suffix_of_mem_kept {ls : List (List Char)} {line : List Char}
    (h : line ∈ trimBlankLines (dedent ls)) : ∃ whole ∈ ls, line <:+ whole := by
  have hmem : line ∈ dedent ls := by
    obtain ⟨before, kept, after, hsplit, hblank, hfirst, hlast⟩ :=
      exists_trimmed isBlankLine (dedent ls)
    rw [hsplit, trimBlankLines_append hblank hfirst hlast] at h
    rw [hsplit]
    simp [h]
  cases ls with
  | nil => simp [dedent] at hmem
  | cons first rest =>
    rw [dedent] at hmem
    split at hmem
    · exact ⟨line, hmem, List.suffix_rfl⟩
    · rename_i n _
      obtain rfl | hmem := List.mem_cons.mp hmem
      · exact ⟨line, List.mem_cons_self, List.suffix_rfl⟩
      · obtain ⟨whole, hm, rfl⟩ := List.mem_map.mp hmem
        exact ⟨whole, List.mem_cons_of_mem _ hm, List.drop_suffix n whole⟩

/-- So they hold no terminators. -/
theorem Lined.Proper.clean_kept (h : t.Proper) :
    ∀ line ∈ trimBlankLines (dedent t.lines), ∀ c ∈ line, c ≠ '\n' ∧ c ≠ '\r' := by
  intro line hline c hc
  obtain ⟨whole, hm, hsuffix⟩ := exists_suffix_of_mem_kept hline
  exact h.clean whole hm c (hsuffix.subset hc)

/-- The value of a text is told by its lines. -/
theorem Lined.Proper.value_text (h : t.Proper) :
    value t.text = List.intercalate ['\n'] (trimBlankLines (dedent t.lines)) := by
  rw [value, h.lines_text]

/-- The lines of the value are those that are kept, if there are any. -/
theorem Lined.Proper.lines_value (h : t.Proper) (hne : trimBlankLines (dedent t.lines) ≠ []) :
    BlockString.lines (value t.text) = trimBlankLines (dedent t.lines) := by
  rw [h.value_text, lines_intercalate hne h.clean_kept]

/-- No carriage return is left. -/
theorem Lined.Proper.not_mem_value (h : t.Proper) : '\r' ∉ value t.text := by
  rw [h.value_text]
  have hclean := h.clean_kept
  generalize trimBlankLines (dedent t.lines) = kept at hclean
  cases kept with
  | nil => simp [List.intercalate]
  | cons first rest =>
    have hfirst := List.forall_mem_cons.mp hclean
    intro hmem
    rw [intercalate_eq_text, Lined.text, List.mem_append, List.mem_flatMap] at hmem
    obtain hmem | ⟨m, hm, hmem⟩ := hmem
    · exact (hfirst.1 _ hmem).2 rfl
    · obtain ⟨line, hline, rfl⟩ := List.mem_map.mp hm
      obtain hmem | hmem := List.mem_append.mp hmem
      · simp [Terminator.spelling] at hmem
      · exact (hfirst.2 line hline _ hmem).2 rfl

/-- The value is empty, or it begins and ends with lines that are not blank. -/
theorem Lined.Proper.value_ends (h : t.Proper) : value t.text = [] ∨
    (∀ line ∈ (BlockString.lines (value t.text)).head?, isBlankLine line = false) ∧
      ∀ line ∈ (BlockString.lines (value t.text)).getLast?, isBlankLine line = false := by
  by_cases hne : trimBlankLines (dedent t.lines) = []
  · refine .inl ?_
    rw [h.value_text, hne]
    rfl
  · refine .inr ?_
    rw [h.lines_value hne]
    obtain ⟨before, kept, after, hsplit, hblank, hfirst, hlast⟩ :=
      exists_trimmed isBlankLine (dedent t.lines)
    rw [hsplit, trimBlankLines_append hblank hfirst hlast]
    exact ⟨hfirst, hlast⟩

/-- Indentation in front of all lines but the first merges no terminators. -/
theorem Lined.Proper.indent (h : t.Proper) (hw : isBlankLine w = true) :
    (t.indent w).Proper := by
  have hclean : ∀ c ∈ w, c ≠ '\n' ∧ c ≠ '\r' := by
    intro c hc
    have hcases : c = ' ' ∨ c = '\t' := by simpa [isIndent] using List.all_eq_true.mp hw c hc
    rcases hcases with rfl | rfl <;> decide
  refine ⟨?_, ?_⟩
  · obtain ⟨hfirst, hrest⟩ := List.forall_mem_cons.mp h.clean
    refine List.forall_mem_cons.mpr ⟨hfirst, ?_⟩
    rw [Lined.indent, Lined.rest, List.map_map]
    refine List.forall_mem_map.mpr fun m hm => List.forall_mem_append.mpr ⟨hclean, ?_⟩
    exact hrest m.2 (List.mem_map_of_mem hm)
  · refine (List.isChain_map _).mpr (h.apart.imp fun m m' hapart hmerged => hapart ?_)
    exact ⟨hmerged.1, (List.append_eq_nil_iff.mp hmerged.2.1).2, hmerged.2.2⟩

/-- A line of a text, numbered from zero, without the indentation that is taken off all lines but
the first. -/
def cutLine (n : Nat) (line : List Char × Nat) : List Char :=
  if line.2 = 0 then line.1 else line.1.drop n

/-- Where some line after the first is not blank, the least indentation of such lines is taken
off. -/
theorem dedent_eq_map_cutLine {first : List Char} {rest : List (List Char)} {n : Nat}
    (h : commonIndent rest = some n) :
    dedent (first :: rest) = (first :: rest).zipIdx.map (cutLine n) := by
  have hrest : ∀ k, (rest.zipIdx (k + 1)).map (cutLine n) = rest.map (List.drop n) := by
    clear h
    induction rest with
    | nil => simp
    | cons line rest ih =>
      intro k
      rw [List.zipIdx_cons, List.map_cons, ih, List.map_cons]
      rfl
  rw [dedent, h, List.zipIdx_cons, List.map_cons, hrest]
  rfl

/-- What is left of a line is blank only if the line is. -/
theorem isBlankLine_cutLine {first : List Char} {rest : List (List Char)} {n : Nat}
    (h : commonIndent rest = some n) :
    ∀ x ∈ (first :: rest).zipIdx, isBlankLine (cutLine n x) = isBlankLine x.1 := by
  rw [List.zipIdx_cons]
  refine List.forall_mem_cons.mpr ⟨rfl, fun x hx => ?_⟩
  unfold cutLine
  split
  · rfl
  · exact (isBlankLine_take_drop h (List.fst_mem_of_mem_zipIdx hx)).2

/-- These are the numbered lines that are left, and this is the indentation that they lose. -/
structure Lined.Keeps (t : Lined) (n : Nat) (kept : List (List Char × Nat)) : Prop where
  /-- It is the least indentation of the lines after the first that are not blank. -/
  least : IsLeast {k | ∃ line ∈ t.rest, isBlankLine line = false ∧ indentation line = k} n
  /-- No line after the first loses anything but indentation. -/
  blank : ∀ line ∈ t.rest, isBlankLine (line.take n) = true
  /-- Only blank lines at both ends are left out. -/
  split : ∃ before after, t.lines.zipIdx = before ++ kept ++ after ∧
    ∀ x ∈ before ++ after, isBlankLine x.1 = true
  /-- The first line that is left is not blank. -/
  first : ∀ x ∈ kept.head?, isBlankLine x.1 = false
  /-- The last line that is left is not blank. -/
  last : ∀ x ∈ kept.getLast?, isBlankLine x.1 = false

/-- Where some line after the first is not blank, the lines of the value are those that are left,
without the indentation that they lose. -/
theorem Lined.Proper.exists_keeps (h : t.Proper)
    (hfilled : ∃ line ∈ t.rest, isBlankLine line = false) :
    ∃ n kept, t.Keeps n kept ∧ BlockString.lines (value t.text) = kept.map (cutLine n) := by
  have hsome : commonIndent t.rest ≠ none := by
    intro hnone
    obtain ⟨line, hm, hline⟩ := hfilled
    rw [commonIndent_eq_none_iff.mp hnone line hm] at hline
    cases hline
  obtain ⟨n, hn⟩ := Option.ne_none_iff_exists'.mp hsome
  obtain ⟨before, kept, after, hsplit, hblank, hfirst, hlast⟩ :=
    exists_trimmed (fun x => isBlankLine x.1) t.lines.zipIdx
  have hcut : ∀ x ∈ before ++ kept ++ after, isBlankLine (cutLine n x) = isBlankLine x.1 :=
    hsplit ▸ isBlankLine_cutLine hn
  have hmem : ∀ x ∈ kept, x ∈ before ++ kept ++ after := fun x hx => by simp [hx]
  have htrimmed : trimBlankLines (dedent t.lines) = kept.map (cutLine n) := by
    rw [Lined.lines, dedent_eq_map_cutLine hn, ← Lined.lines, hsplit, List.map_append,
      List.map_append]
    refine trimBlankLines_append ?_ ?_ ?_
    · rw [← List.map_append]
      refine List.forall_mem_map.mpr fun x hx => ?_
      have hx' : x ∈ before ++ kept ++ after := by
        rcases List.mem_append.mp hx with hx | hx <;> simp [hx]
      rw [hcut x hx', hblank x hx]
    · intro line hline
      rw [List.head?_map] at hline
      obtain ⟨x, hx, rfl⟩ := Option.map_eq_some_iff.mp hline
      rw [hcut x (hmem x (List.mem_of_mem_head? hx)), hfirst x hx]
    · intro line hline
      rw [List.getLast?_map] at hline
      obtain ⟨x, hx, rfl⟩ := Option.map_eq_some_iff.mp hline
      rw [hcut x (hmem x (List.mem_of_getLast? hx)), hlast x hx]
  have hkept : trimBlankLines (dedent t.lines) ≠ [] := by
    obtain ⟨line, hm, hline⟩ := hfilled
    refine trimBlankLines_ne_nil ⟨line.drop n, ?_, (isBlankLine_take_drop hn hm).2.trans hline⟩
    rw [Lined.lines, dedent, hn]
    exact List.mem_cons_of_mem _ (List.mem_map_of_mem hm)
  refine ⟨n, kept, ⟨commonIndent_eq_some_iff.mp hn, fun line hm => (isBlankLine_take_drop hn hm).1,
    ⟨before, after, hsplit, hblank⟩, hfirst, hlast⟩, ?_⟩
  rw [h.lines_value hkept, htrimmed]

end Value

/-- Every text has lines, and its value as a block string depends on them alone, up to common
indentation. (1) The value holds no carriage return and is empty or begins and ends with lines that
are not blank. (2) The same lines with other terminators have the same value, and (3) so have lines
of which all but the first get the same indentation in front. (4) Where some line after the first
is not blank, the value consists of the lines between blank ones at both ends, and each of them but
the first has lost the least indentation of those lines. -/
theorem value_depends_on_lines :
    (∀ raw, ∃ t : Lined, t.Proper ∧ t.text = raw) ∧ ∀ t : Lined, t.Proper →
      ('\r' ∉ value t.text ∧ (value t.text = [] ∨
        (∀ line ∈ (lines (value t.text)).head?, isBlankLine line = false) ∧
          ∀ line ∈ (lines (value t.text)).getLast?, isBlankLine line = false)) ∧
      (∀ t' : Lined, t'.Proper → t'.lines = t.lines → value t'.text = value t.text) ∧
      (∀ w, isBlankLine w = true → value (t.indent w).text = value t.text) ∧
      ((∃ line ∈ t.rest, isBlankLine line = false) →
        ∃ n kept, t.Keeps n kept ∧ lines (value t.text) = kept.map (cutLine n)) := by
  refine ⟨Lined.exists_proper, fun t h => ⟨⟨h.not_mem_value, h.value_ends⟩, ?_, ?_,
    h.exists_keeps⟩⟩
  · intro t' h' hlines
    rw [h'.value_text, h.value_text, hlines]
  · intro w hw
    have hlines : (t.indent w).lines = t.first :: t.rest.map (w ++ ·) := by
      simp [Lined.lines, Lined.rest, Lined.indent, Function.comp_def]
    rw [(h.indent hw).value_text, h.value_text, hlines, trimBlankLines_dedent_map hw, ← Lined.lines]

/-- A blank line shorter than the indentation, one longer than it, and terminators of all kinds. -/
def mixed : Lined where
  first := []
  more := [(.pair, "  a".toList), (.carriageReturn, [' ']), (.lineFeed, "   ".toList),
    (.lineFeed, "\t b".toList), (.carriageReturn, [])]

/-- They may all be line feeds, and a tab more may stand in front of each line. -/
theorem value_depends_on_lines_mixed :
    mixed.Proper ∧ value "\n  a\n \n   \n\t b\n".toList = value mixed.text ∧
      value (mixed.indent ['\t']).text = value mixed.text ∧
      ∃ n kept, mixed.Keeps n kept ∧ lines (value mixed.text) = kept.map (cutLine n) := by
  have hmixed : mixed.Proper :=
    ⟨by simp [mixed, Lined.lines, Lined.rest], by simp [mixed]⟩
  have hfeeds : Lined.Proper ⟨[], mixed.rest.map (.lineFeed, ·)⟩ :=
    ⟨by simp [mixed, Lined.lines, Lined.rest], by simp [mixed, Lined.rest]⟩
  obtain ⟨-, hterminators, hindent, hkeeps⟩ := value_depends_on_lines.2 mixed hmixed
  refine ⟨hmixed, hterminators _ hfeeds rfl, hindent ['\t'] (by decide), hkeeps ?_⟩
  exact ⟨"  a".toList, List.mem_cons_self, by decide⟩

example : value mixed.text = "a\n\n \nb".toList := by decide

end Safelist.Text.BlockString
