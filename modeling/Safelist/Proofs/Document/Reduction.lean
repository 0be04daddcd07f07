import Safelist.Text.Blank
import Safelist.Proofs.Document.RoundTrip

/-!
# The reduced form of any layout

A document may be laid out with any white space between its pieces, as long as there is
some where two characters of names would touch. Reducing such a text means two things:
every run of white space that stands outside of strings becomes a single space, and then
a space goes unless characters of names stand on both sides of it. Whatever the layout
was, the reduced form of the document is what this leaves.
-/

namespace Safelist

open Lexical

namespace Reduction

/-- Where a reader of a text stands who minds quotes only. -/
inductive Place where
  /-- Outside of strings. -/
  | outside
  /-- In a string. -/
  | inside
  /-- In a string, behind a backslash. -/
  | escaped
deriving DecidableEq

/-- Where a reader stands behind a character. -/
def Place.next : Place → Char → Place
  | .outside, c => if c = '"' then .inside else .outside
  | .inside, c => if c = '"' then .outside else if c = '\\' then .escaped else .inside
  | .escaped, _ => .inside

/-- Where a reader stands behind a text. -/
def Place.behind (place : Place) (text : List Char) : Place := text.foldl Place.next place

/-- The characters of a text, each with whether it is white space that stands outside of
strings. -/
def marked (place : Place) : List Char → List (Char × Bool)
  | [] => []
  | c :: rest => (c, place = .outside && Text.isWhiteSpace c) :: marked (place.next c) rest

/-- Every run of white space outside of strings becomes a single space. -/
def collapse : List (Char × Bool) → List (Char × Bool)
  | [] => []
  | x :: rest =>
    if x.2 then if rest.head?.any Prod.snd then collapse rest else (' ', true) :: collapse rest
    else x :: collapse rest

/-- A space outside of strings goes, unless characters of names stand on both sides of it. -/
def dropSpaces (last : Option Char) : List (Char × Bool) → List Char
  | [] => []
  | x :: rest =>
    if x.2 && !(last.any isNameChar && (rest.head?.map Prod.fst).any isNameChar) then
      dropSpaces (some x.1) rest
    else x.1 :: dropSpaces (some x.1) rest

/-- A text with its white space reduced. -/
def reduce (text : List Char) : List Char := dropSpaces none (collapse (marked .outside text))

/-- A text consists of texts in a row, with any white space before, between and behind them, and
some wherever two characters of names would touch. The last character of what stands before is
given. -/
inductive LaidOut : Option Char → List (List Char) → List Char → Prop
  /-- White space may stand at the end. -/
  | nil {last : Option Char} {gap : List Char} (hgap : gap.all Text.isWhiteSpace = true) :
    LaidOut last [] gap
  /-- White space may stand before a text, and must where it keeps names apart. -/
  | cons {last : Option Char} {gap text tail : List Char} {texts : List (List Char)}
    (hgap : gap.all Text.isWhiteSpace = true)
    (hapart : last.any isNameChar = true → text.head?.any isNameChar = true → gap ≠ [])
    (h : LaidOut text.getLast? texts tail) : LaidOut last (text :: texts) (gap ++ text ++ tail)

/-- Whether a character is neither a quote nor white space. -/
def isPlain (c : Char) : Bool := c ≠ '"' && !Text.isWhiteSpace c

theorem isPlain_iff {c : Char} : isPlain c = true ↔ c ≠ '"' ∧ Text.isWhiteSpace c = false := by
  simp [isPlain]

/-- A text that is not empty, closes the strings that it opens, and holds no white space outside of
them. -/
structure Solid (text : List Char) : Prop where
  /-- There is a character. -/
  ne_nil : text ≠ []
  /-- Behind it a reader is outside of strings. -/
  closed : Place.outside.behind text = .outside
  /-- No white space stands outside of strings. -/
  filled : ∀ x ∈ marked .outside text, x.2 = false

section Marks

variable {text : List Char}

/-- Behind two texts in a row. -/
theorem Place.behind_append (place : Place) (text rest : List Char) :
    place.behind (text ++ rest) = (place.behind text).behind rest :=
  List.foldl_append

theorem marked_append (place : Place) (text rest : List Char) :
    marked place (text ++ rest) = marked place text ++ marked (place.behind text) rest := by
  induction text generalizing place with
  | nil => rfl
  | cons c text ih =>
    rw [List.cons_append, marked, marked, ih, List.cons_append]
    rfl

theorem map_fst_marked (place : Place) (text : List Char) :
    (marked place text).map Prod.fst = text := by
  induction text generalizing place with
  | nil => rfl
  | cons c text ih => rw [marked, List.map_cons, ih]

/-- Behind a text that closes its strings, reading goes on outside of strings. -/
theorem Solid.marked_append_eq (h : Solid text) (rest : List Char) :
    marked .outside (text ++ rest) = marked .outside text ++ marked .outside rest := by
  rw [marked_append, h.closed]

/-- Text that is not empty has a last character, whatever stands before it. -/
theorem Solid.getLast?_or (h : Solid text) (last : Option Char) :
    text.getLast?.or last = text.getLast? := by
  rw [List.getLast?_eq_some_getLast h.ne_nil, Option.some_or]

/-- White space outside of strings is marked, and leads into none. -/
theorem marked_gap {gap : List Char} (h : gap.all Text.isWhiteSpace = true) (rest : List Char) :
    marked .outside (gap ++ rest) = gap.map (·, true) ++ marked .outside rest := by
  induction gap with
  | nil => rfl
  | cons c gap ih =>
    obtain ⟨hc, hgap⟩ := (Bool.and_eq_true _ _).mp h
    have hquote : c ≠ '"' := by
      rintro rfl
      exact absurd hc (by decide)
    rw [List.cons_append, marked, List.map_cons, List.cons_append, ← ih hgap]
    simp [hc, Place.next, hquote]

/-- Characters other than white space and quotes make a solid text. -/
theorem solid_of_plain (hne : text ≠ []) (h : text.all isPlain = true) : Solid text := by
  have hstays : Place.outside.behind text = .outside ∧
      ∀ x ∈ marked .outside text, x.2 = false := by
    clear hne
    induction text with
    | nil => simp [Place.behind, marked]
    | cons c text ih =>
      obtain ⟨hc, htext⟩ := (Bool.and_eq_true _ _).mp h
      obtain ⟨hquote, hblank⟩ := isPlain_iff.mp hc
      have hnext : Place.outside.next c = .outside := by simp [Place.next, hquote]
      obtain ⟨hclosed, hfilled⟩ := ih htext
      rw [Place.behind, List.foldl_cons, marked, hnext]
      exact ⟨hclosed, List.forall_mem_cons.mpr ⟨by simp [hblank], hfilled⟩⟩
  exact ⟨hne, hstays.1, hstays.2⟩

end Marks

section Passes

variable {xs : List (Char × Bool)}

/-- What holds no marked characters stays as it is. -/
theorem collapse_append (h : ∀ x ∈ xs, x.2 = false) (rest : List (Char × Bool)) :
    collapse (xs ++ rest) = xs ++ collapse rest := by
  induction xs with
  | nil => rfl
  | cons x xs ih =>
    obtain ⟨hx, hxs⟩ := List.forall_mem_cons.mp h
    rw [List.cons_append, collapse, if_neg (by simp [hx]), ih hxs, List.cons_append]

/-- A run of white space becomes a single space. -/
theorem collapse_gap {gap : List Char} (hne : gap ≠ []) {rest : List (Char × Bool)}
    (hrest : rest.head?.any Prod.snd = false) :
    collapse (gap.map (·, true) ++ rest) = (' ', true) :: collapse rest := by
  induction gap with
  | nil => exact absurd rfl hne
  | cons c gap ih =>
    rw [List.map_cons, List.cons_append, collapse, if_pos rfl]
    cases gap with
    | nil => simp [hrest]
    | cons d gap =>
      rw [if_pos (by simp)]
      exact ih (List.cons_ne_nil d gap)

/-- Where nothing is marked, nothing goes. -/
theorem dropSpaces_append (h : ∀ x ∈ xs, x.2 = false) (last : Option Char)
    (rest : List (Char × Bool)) : dropSpaces last (xs ++ rest) =
      xs.map Prod.fst ++ dropSpaces ((xs.map Prod.fst).getLast?.or last) rest := by
  induction xs generalizing last with
  | nil => simp
  | cons x xs ih =>
    obtain ⟨hx, hxs⟩ := List.forall_mem_cons.mp h
    rw [List.cons_append, dropSpaces, if_neg (by simp [hx]), ih hxs, List.map_cons,
      List.cons_append]
    cases hlast : (xs.map Prod.fst).getLast? <;> simp [List.getLast?_cons, hlast]

end Passes

/-- Two characters in a row need a space if both are characters of names. -/
theorem needsSpace_eq (last first : Option Char) :
    needsSpace last first = (last.any isNameChar && first.any isNameChar) := by
  cases last <;> cases first <;> simp [needsSpace]

/-- Whatever the layout of solid texts was, reducing it joins them. -/
theorem dropSpaces_collapse_marked {last : Option Char} {texts : List (List Char)} {t : List Char}
    (h : LaidOut last texts t) (hsolid : ∀ text ∈ texts, Solid text) :
    dropSpaces last (collapse (marked .outside t)) = joinTexts last texts := by
  induction h with
  | @nil last gap hgap =>
    have hmarked := marked_gap hgap []
    rw [List.append_nil, marked] at hmarked
    rw [hmarked, joinTexts]
    by_cases hne : gap = []
    · rw [hne]
      rfl
    · rw [collapse_gap hne rfl]
      simp [collapse, dropSpaces]
  | @cons last gap text tail texts hgap hapart _ ih =>
    obtain ⟨htext, htexts⟩ := List.forall_mem_cons.mp hsolid
    have hrest : ∀ before,
        dropSpaces before (marked .outside text ++ collapse (marked .outside tail)) =
          text ++ joinTexts (text.getLast?.or last) texts := by
      intro before
      rw [dropSpaces_append htext.filled, map_fst_marked, htext.getLast?_or, htext.getLast?_or,
        ih htexts]
    have hhead : ∀ more, ((marked .outside text ++ more).head?.map Prod.fst) = text.head? := by
      intro more
      obtain ⟨c, tail, rfl⟩ := List.exists_cons_of_ne_nil htext.ne_nil
      rfl
    have hstart : (marked .outside text ++ marked .outside tail).head?.any Prod.snd = false := by
      obtain ⟨c, cs, rfl⟩ := List.exists_cons_of_ne_nil htext.ne_nil
      simpa [marked] using htext.filled _ List.mem_cons_self
    rw [List.append_assoc, marked_gap hgap, htext.marked_append_eq, joinTexts, needsSpace_eq]
    by_cases hne : gap = []
    · have hnone : ¬(last.any isNameChar && text.head?.any isNameChar) = true := by
        rw [Bool.and_eq_true]
        exact fun hboth => hapart hboth.1 hboth.2 hne
      rw [hne, List.map_nil, List.nil_append, collapse_append htext.filled, hrest, if_neg hnone,
        List.nil_append]
    · rw [collapse_gap hne hstart, collapse_append htext.filled, dropSpaces, hhead, hrest]
      cases last.any isNameChar && text.head?.any isNameChar <;> simp

section Blanks

variable {before after text rest : List Char} {c : Char} {last : Option Char}
  {texts : List (List Char)}

/-- White space that is met outside of strings stands behind a solid text, not in it. -/
theorem Solid.exists_of_blank (h : Solid text) (htext : text ++ rest = before ++ c :: after)
    (hout : Place.outside.behind before = .outside) (hc : Text.isWhiteSpace c = true) :
    ∃ more, before = text ++ more ∧ rest = more ++ c :: after ∧
      Place.outside.behind more = .outside := by
  have hinside : ∀ tail, text ≠ before ++ c :: tail := by
    rintro tail rfl
    have hmem : (c, Text.isWhiteSpace c) ∈ marked .outside (before ++ c :: tail) := by
      simp [marked_append, marked, hout]
    exact Bool.false_ne_true ((h.filled _ hmem).symm.trans hc)
  obtain ⟨more, rfl, hrest⟩ | ⟨more, hmore, hafter⟩ := List.append_eq_append_iff.mp htext
  · refine ⟨more, rfl, hrest, ?_⟩
    rwa [Place.behind_append, h.closed] at hout
  · cases more with
    | nil =>
      rw [List.append_nil] at hmore
      exact ⟨[], by simp [hmore], by simp [hafter], rfl⟩
    | cons d more =>
      rw [List.cons_append, List.cons.injEq] at hafter
      exact absurd (hafter.1 ▸ hmore) (hinside more)

/-- Between what stands before and behind, joined texts need a space to keep names apart. -/
def KeepsApart (last : Option Char) (texts : List (List Char)) (before after : List Char) : Prop :=
  ∃ xs y ys, texts = xs ++ y :: ys ∧ before = joinTexts last xs ∧ after = joinTexts none (y :: ys) ∧
    (before.getLast?.or last).any isNameChar = true ∧ y.head?.any isNameChar = true

/-- They need it too where one more text comes before. -/
theorem KeepsApart.cons (last : Option Char) (htext : Solid text)
    (h : KeepsApart text.getLast? texts before after) :
    KeepsApart last (text :: texts)
      ((if needsSpace last text.head? then [' '] else []) ++ (text ++ before)) after := by
  obtain ⟨xs, y, ys, rfl, hbefore, hafter, hlast, hfirst⟩ := h
  refine ⟨text :: xs, y, ys, rfl, ?_, hafter, ?_, hfirst⟩
  · rw [joinTexts, htext.getLast?_or, ← hbefore, List.append_assoc]
  · rwa [List.getLast?_append, List.getLast?_append, Option.or_assoc, Option.or_assoc,
      htext.getLast?_or]

/-- White space outside of strings in joined texts is a space that keeps names apart. -/
theorem keepsApart_of_blank (hsolid : ∀ text ∈ texts, Solid text)
    (htext : joinTexts last texts = before ++ c :: after)
    (hout : Place.outside.behind before = .outside) (hc : Text.isWhiteSpace c = true) :
    c = ' ' ∧ KeepsApart last texts before after := by
  induction texts generalizing last before with
  | nil => simp [joinTexts] at htext
  | cons text texts ih =>
    obtain ⟨hhead, htail⟩ := List.forall_mem_cons.mp hsolid
    have hbehind : ∀ rest, text ++ joinTexts text.getLast? texts = rest ++ c :: after →
        Place.outside.behind rest = .outside → c = ' ' ∧ KeepsApart last (text :: texts)
          ((if needsSpace last text.head? then [' '] else []) ++ rest) after := by
      intro rest hrest hplace
      obtain ⟨more, rfl, hjoined, hmore⟩ := hhead.exists_of_blank hrest hplace hc
      exact (ih htail hjoined hmore).imp_right (KeepsApart.cons last hhead)
    rw [joinTexts, hhead.getLast?_or, List.append_assoc] at htext
    cases hneeds : needsSpace last text.head? with
    | false =>
      rw [hneeds] at htext hbehind
      exact hbehind before htext hout
    | true =>
      rw [hneeds] at htext hbehind
      -- the white space is the space in front of the text, or it stands behind this space
      cases before with
      | nil =>
        obtain ⟨rfl, rfl⟩ := List.cons.inj htext
        rw [needsSpace_eq, Bool.and_eq_true] at hneeds
        have hfirst : joinTexts none (text :: texts) = text ++ joinTexts text.getLast? texts := by
          rw [joinTexts, hhead.getLast?_or]
          rfl
        exact ⟨rfl, [], text, texts, rfl, rfl, hfirst.symm, hneeds⟩
      | cons d before =>
        obtain ⟨rfl, hrest⟩ := List.cons.inj htext
        exact hbehind before hrest hout

end Blanks

section Strings

variable {part text : List Char} {c : Char}

/-- A reader in a string is still in it behind a text that spells what the string holds, and
nothing there is marked. -/
structure Kept (text : List Char) : Prop where
  /-- Behind it a reader is still in the string. -/
  inside : Place.inside.behind text = .inside
  /-- Nothing in it is marked. -/
  unmarked : ∀ x ∈ marked .inside text, x.2 = false

theorem kept_nil : Kept [] where
  inside := rfl
  unmarked := by simp [marked]

theorem Kept.append {rest : List Char} (h : Kept text) (hrest : Kept rest) :
    Kept (text ++ rest) where
  inside := by rw [Place.behind_append, h.inside, hrest.inside]
  unmarked := by
    rw [marked_append, h.inside]
    exact List.forall_mem_append.mpr ⟨h.unmarked, hrest.unmarked⟩

/-- A character that is no quote and no backslash keeps a reader in the string. -/
theorem kept_singleton (hquote : c ≠ '"') (hback : c ≠ '\\') : Kept [c] where
  inside := by simp [Place.behind, Place.next, hquote, hback]
  unmarked := by simp [marked]

/-- So does a backslash with the character behind it, even if that is a quote. -/
theorem kept_pair (c : Char) : Kept ['\\', c] where
  inside := by simp [Place.behind, Place.next]
  unmarked := by simp [marked, Place.next]

/-- The digits of a code keep a reader in the string. -/
theorem kept_code {n : Nat} (h : Text.Hex.IsCode part n) : Kept part := by
  have hplain : ∀ d ∈ part, d ≠ '"' ∧ d ≠ '\\' := by
    intro d hd
    have hdigit := h.isSome_value? hd
    constructor <;> rintro rfl <;> exact absurd hdigit (by decide)
  clear h
  induction part with
  | nil => exact kept_nil
  | cons d part ih =>
    obtain ⟨hd, hpart⟩ := List.forall_mem_cons.mp hplain
    exact (kept_singleton hd.1 hd.2).append (ih hpart)

theorem kept_of_charSpelled (h : Quoted.CharSpelled part c) : Kept part := by
  cases h with
  | raw hquote hback => exact kept_singleton hquote hback
  | short => exact kept_pair _
  | code hds => exact (kept_pair 'u').append (kept_code hds)
  | pair _ hds hds' =>
    exact ((kept_pair 'u').append (kept_code hds)).append ((kept_pair 'u').append (kept_code hds'))

theorem kept_of_spelled {spelling : List Char} (h : Quoted.Spelled spelling text) :
    Kept spelling := by
  induction h with
  | nil => exact kept_nil
  | cons hc _ ih => exact (kept_of_charSpelled hc).append ih

/-- A quoted text is solid, whatever white space and quotes it holds. -/
theorem solid_quote (text : List Char) : Solid (Text.Escape.json.quote text) := by
  have hbody : Kept (Text.Escape.json.body text) := kept_of_spelled (Quoted.spelled_json text)
  refine ⟨List.cons_ne_nil _ _, ?_, ?_⟩
  · show Place.inside.behind (Text.Escape.json.body text ++ ['"']) = .outside
    rw [Place.behind_append, hbody.inside]
    rfl
  · show ∀ x ∈ ('"', false) :: marked .inside (Text.Escape.json.body text ++ ['"']), x.2 = false
    rw [marked_append, hbody.inside]
    refine List.forall_mem_cons.mpr ⟨rfl, List.forall_mem_append.mpr ⟨hbody.unmarked, ?_⟩⟩
    simp [marked]

end Strings

section Pieces

/-- Characters of names are plain. -/
theorem isPlain_of_isNameChar {c : Char} (h : isNameChar c = true) : isPlain c = true := by
  have hbelow : ∀ d : Char, c.val ≤ d.val → d.toNat < 128 → c.toNat < 128 :=
    fun _ hle hd => Nat.lt_of_le_of_lt hle hd
  have hcases : c = '_' ∨ c.isAlpha = true ∨ c.isDigit = true := by
    simpa [isNameChar, Char.isAlphanum] using h
  have hlow : c.toNat < 128 := by
    obtain rfl | halpha | hdigit := hcases
    · decide
    · obtain hupper | hlower := (Bool.or_eq_true _ _).mp halpha
      · exact hbelow 'Z' (of_decide_eq_true hupper).2 (by decide)
      · exact hbelow 'z' (of_decide_eq_true ((Bool.and_eq_true _ _).mp hlower).2) (by decide)
    · exact hbelow '9' (of_decide_eq_true ((Bool.and_eq_true _ _).mp hdigit).2) (by decide)
  exact Text.Hex.forall_char_lt (b := 128) (P := fun c => isNameChar c = true → isPlain c = true)
    (by decide) c hlow h

/-- A numeral is made of characters of names, signs and periods. -/
theorem solid_numeral (n : Number.Numeral) : Solid n.text := by
  have hdigits : ∀ {ds : List Char}, Number.IsDigits ds → ds.all isPlain = true := by
    intro ds hds
    refine List.all_eq_true.mpr fun d hd => isPlain_of_isNameChar ?_
    simp [isNameChar, Char.isAlphanum, hds.2 d hd]
  have hsign : n.sign.all isPlain = true := by
    obtain hs | hs := n.sign_eq <;> rw [hs] <;> decide
  have hfraction : n.fraction.all isPlain = true := by
    obtain hf | ⟨ds, hds, hf⟩ := n.fraction_ok
    · rw [hf]
      rfl
    · rw [hf, List.all_cons, hdigits hds]
      decide
  have hexponent : n.exponent.all isPlain = true := by
    obtain he | ⟨e, s, ds, hletter, hs, hds, he⟩ := n.exponent_ok
    · rw [he]
      rfl
    · rw [he, List.all_cons, List.all_append, hdigits hds]
      obtain rfl | rfl := hletter <;> obtain rfl | rfl | rfl := hs <;> decide
  obtain ⟨cs, d, htext, -⟩ := n.exists_text_eq_append
  refine solid_of_plain (by simp [htext]) ?_
  simp [Number.Numeral.text, List.all_append, hsign, hdigits n.whole_digits, hfraction, hexponent,
    -List.all_eq_true]

/-- The spelling of a piece is solid. -/
theorem solid_spelling {p : Piece} (h : p.Written) : Solid p.spelling := by
  cases p with
  | comma => exact solid_of_plain (List.cons_ne_nil _ _) (by decide)
  | lexeme l =>
    obtain ⟨hl, hplain⟩ := h
    cases l with
    | mark m => cases m <;> exact solid_of_plain (List.cons_ne_nil _ _) (by decide)
    | name text =>
      obtain ⟨c, cs, ht, hc, hcs⟩ := hl
      rw [Piece.spelling, Lexeme.spelling, ht]
      refine solid_of_plain (List.cons_ne_nil _ _) (List.all_eq_true.mpr fun d hd => ?_)
      refine isPlain_of_isNameChar ?_
      obtain rfl | hd := List.mem_cons.mp hd
      · exact Lexer.isNameChar_of_isNameStart hc
      · exact hcs d hd
    | int text =>
      obtain ⟨n, ht, -⟩ := IsInt.exists_numeral hl
      rw [Piece.spelling, Lexeme.spelling, ht]
      exact solid_numeral n
    | float text =>
      obtain ⟨n, ht, -⟩ := IsFloat.exists_numeral hl
      rw [Piece.spelling, Lexeme.spelling, ht]
      exact solid_numeral n
    | string value => exact solid_quote value.toList
    | block value => cases hplain

end Pieces

section Layouts

variable {texts : List (List Char)}

/-- Joined texts are one layout of them. -/
theorem laidOut_joinTexts (h : ∀ text ∈ texts, Solid text)
    (last : Option Char) : LaidOut last texts (joinTexts last texts) := by
  induction texts generalizing last with
  | nil => exact .nil rfl
  | cons text texts ih =>
    obtain ⟨htext, htexts⟩ := List.forall_mem_cons.mp h
    rw [joinTexts, needsSpace_eq, htext.getLast?_or]
    refine .cons ?_ ?_ (ih htexts _)
    · split <;> rfl
    · intro hlast hfirst
      simp [hlast, hfirst]

/-- So is the layout with the same white space around each of them. -/
theorem laidOut_flatMap {gap : List Char} (hne : gap ≠ [])
    (hgap : gap.all Text.isWhiteSpace = true) (last : Option Char) :
    LaidOut last texts (texts.flatMap (gap ++ ·) ++ gap) := by
  induction texts generalizing last with
  | nil => exact .nil hgap
  | cons text texts ih =>
    rw [List.flatMap_cons, List.append_assoc]
    exact .cons hgap (fun _ _ => hne) (ih _)

/-- Joined texts end as the last of them does. -/
theorem getLast?_joinTexts_append {text : List Char} (h : Solid text) (last : Option Char) :
    (joinTexts last (texts ++ [text])).getLast? = text.getLast? := by
  induction texts generalizing last with
  | nil => simp [joinTexts, List.getLast?_append, h.getLast?_or]
  | cons first texts ih =>
    rw [List.cons_append, joinTexts, List.getLast?_append, ih, h.getLast?_or]

end Layouts

end Reduction

namespace Document

open Reduction

/-- The reduced form of a well-formed document is the one that every layout of its pieces reduces
to. Outside of strings it holds no white space but single spaces, and each of them keeps two
characters of names apart, with which the lexeme before it ends and the one behind it begins. -/
theorem reduced_form_of_layouts {d : Document} (h : d.WellFormed) :
    LaidOut none (d.pieces.map Piece.spelling) d.print.toList ∧
    (∀ t, LaidOut none (d.pieces.map Piece.spelling) t → reduce t = d.print.toList) ∧
    ∀ before c after, d.print.toList = before ++ c :: after →
      Place.outside.behind before = .outside → Text.isWhiteSpace c = true →
      c = ' ' ∧ ∃ ps l m qs, d.pieces = ps ++ .lexeme l :: .lexeme m :: qs ∧
        before = joinTexts none ((ps ++ [.lexeme l]).map Piece.spelling) ∧
        after = joinTexts none ((.lexeme m :: qs).map Piece.spelling) ∧
        l.spelling.getLast?.any isNameChar = true ∧ m.spelling.head?.any isNameChar = true := by
  have hwritten : ∀ p ∈ d.pieces, p.Written := (tidy_pieces h.wellSpelled).written
  have hsolid : ∀ text ∈ d.pieces.map Piece.spelling, Solid text :=
    List.forall_mem_map.mpr fun p hp => solid_spelling (hwritten p hp)
  have hprint : d.print.toList = joinTexts none (d.pieces.map Piece.spelling) := by
    rw [print, String.toList_ofList, reducedChars]
  rw [hprint]
  refine ⟨laidOut_joinTexts hsolid none, fun t ht => dropSpaces_collapse_marked ht hsolid, ?_⟩
  intro before c after htext hout hc
  obtain ⟨hspace, xs, y, ys, htexts, hbefore, hafter, hlast, hfirst⟩ :=
    keepsApart_of_blank hsolid htext hout hc
  obtain ⟨front, back, hpieces, rfl, hback⟩ := List.map_eq_append_iff.mp htexts
  obtain ⟨q, qs, rfl, rfl, rfl⟩ := List.map_eq_cons_iff.mp hback
  rw [Option.or_none, hbefore] at hlast
  -- what stands before the space is not empty, since it ends with a character of names
  obtain rfl | ⟨ps, p, rfl⟩ := List.eq_nil_or_concat front
  · cases hlast
  · rw [List.concat_eq_append] at hpieces hbefore hlast
    have hp : Solid p.spelling := hsolid _ (List.mem_map_of_mem (by simp [hpieces]))
    rw [List.map_append, List.map_singleton, getLast?_joinTexts_append hp] at hlast
    cases p with
    | comma => cases hlast
    | lexeme l =>
      cases q with
      | comma => cases hfirst
      | lexeme m =>
        refine ⟨hspace, ps, l, m, qs, ?_, hbefore, hafter, hlast, hfirst⟩
        rw [hpieces, List.append_assoc, List.singleton_append]

/-- White space and a quote in a string stay, and of two words only the space between them is kept,
where every piece stands on a line of its own. -/
theorem reduced_form_of_layouts_lines :
    ∃ d, parse "query @a(b: \"c  \\\" d\") {... on on {e}}" = .ok d ∧
      (d.print, (d.pieces.map Piece.spelling).flatMap (['\n'] ++ ·) ++ ['\n']) =
        ("query@a(b:\"c  \\\" d\"){...on on{e}}", ("\nquery\n@\na\n(\nb\n:\n\"c  \\\" d\"\n)" ++
          "\n\x7b\n...\non\non\n\x7b\ne\n\x7d\n\x7d\n").toList) ∧
      d.WellFormed ∧
      reduce ("\nquery\n@\na\n(\nb\n:\n\"c  \\\" d\"\n)" ++
        "\n\x7b\n...\non\non\n\x7b\ne\n\x7d\n\x7d\n").toList = d.print.toList ∧
      ∃ ps l m qs, d.pieces = ps ++ .lexeme l :: .lexeme m :: qs ∧
        "query@a(b:\"c  \\\" d\")\x7b...on".toList =
          joinTexts none ((ps ++ [.lexeme l]).map Piece.spelling) ∧
        "on\x7be\x7d\x7d".toList = joinTexts none ((.lexeme m :: qs).map Piece.spelling) := by
  refine exists_of_map (by decide +kernel) fun d hd hshown => ?_
  obtain ⟨hprint, hlayout⟩ := Prod.mk.inj hshown
  have hformed : d.WellFormed := wellFormed_of_parse hd
  have hforms := reduced_form_of_layouts hformed
  refine ⟨hformed, ?_, ?_⟩
  · rw [← hlayout]
    exact hforms.2.1 _ (laidOut_flatMap (by decide) (by decide) none)
  · obtain ⟨-, ps, l, m, qs, hpieces, hbefore, hafter, -⟩ := hforms.2.2
      "query@a(b:\"c  \\\" d\")\x7b...on".toList ' ' "on\x7be\x7d\x7d".toList
      (by rw [hprint]; decide) (by decide) (by decide)
    exact ⟨ps, l, m, qs, hpieces, hbefore, hafter⟩

end Document

end Safelist
