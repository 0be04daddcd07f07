import Safelist.Proofs.Document.WellFormed

/-!
# Reduced text and its lexemes

Pieces are tidy when each can be written and no piece would be read into the one
in front of it. Tidy pieces written in a row are read back as their lexemes, and
the pieces of a well-formed document are tidy.
-/

namespace Safelist

open Lexical

namespace Piece

/-- Whether a piece is a number or a string, into which what follows might be read. -/
def isLiteral : Piece → Bool
  | .lexeme (.int _) => true
  | .lexeme (.float _) => true
  | .lexeme (.string _) => true
  | _ => false

/-- Whether a piece begins with neither a period nor a quote. -/
def isGuarded : Piece → Bool
  | .lexeme (.mark .dots) => false
  | .lexeme (.string _) => false
  | .lexeme (.block _) => false
  | _ => true

/-- Whether pieces begin guarded, or there are none. -/
def startsGuarded (ps : List Piece) : Bool := ps.head?.all isGuarded

/-- A comma, or a lexeme as reduced text has it. -/
def Written : Piece → Prop
  | .lexeme l => l.WellFormed ∧ l.plain = l
  | .comma => True

/-- Every piece can be written, and behind a number or a string stands nothing that begins
with a period or a quote. -/
def Tidy : List Piece → Prop
  | [] => True
  | p :: rest => p.Written ∧ (p.isLiteral = true → startsGuarded rest = true) ∧ Tidy rest

theorem Tidy.written {ps : List Piece} (h : Tidy ps) : ∀ p ∈ ps, p.Written := by
  induction ps with
  | nil => simp
  | cons p ps ih => exact List.forall_mem_cons.mpr ⟨h.1, ih h.2.2⟩

end Piece

/-- A character of a name is never followed by another one where texts are joined. -/
theorem head?_joinTexts_of_isNameChar {last : Char} (h : isNameChar last = true)
    (texts : List (List Char)) : (joinTexts (some last) texts).head?.any isNameChar = false := by
  induction texts with
  | nil => rfl
  | cons text rest ih =>
    cases text with
    | nil => simpa [joinTexts, needsSpace] using ih
    | cons c cs =>
      by_cases hc : isNameChar c = true
      · simp [joinTexts, needsSpace, h, hc]
        decide
      · simp [joinTexts, needsSpace, h, hc]

/-- What begins neither with a character of names nor with a period continues no number. -/
theorem not_isContinued {rest : List Char} (hn : rest.head?.any isNameChar = false)
    (hp : rest.head? ≠ some '.') : Number.isContinued rest = false := by
  cases rest with
  | nil => rfl
  | cons c rest =>
    simp only [List.head?_cons, Option.any_some, isNameChar, Char.isAlphanum, Bool.or_eq_false_iff,
      decide_eq_false_iff_not, ne_eq, Option.some.injEq] at hn hp
    simp [Number.isContinued, Number.continues, hn, hp]

/-- Joined texts begin with a space or as the first of them does. -/
theorem head?_joinTexts_cons (last : Option Char) (c : Char) (cs : List Char)
    (rest : List (List Char)) :
    (joinTexts last ((c :: cs) :: rest)).head? = some ' ' ∨
      (joinTexts last ((c :: cs) :: rest)).head? = some c := by
  rw [joinTexts]
  split
  · exact .inl rfl
  · exact .inr rfl

namespace Piece

/-- A guarded piece begins with neither a period nor a quote. -/
theorem exists_spelling_eq_cons {p : Piece} (hp : p.Written) (hg : p.isGuarded = true) :
    ∃ c cs, p.spelling = c :: cs ∧ c ≠ '.' ∧ c ≠ '"' := by
  have hnumber : ∀ n : Number.Numeral, ∃ c cs, n.text = c :: cs ∧ c ≠ '.' ∧ c ≠ '"' := by
    intro n
    obtain ⟨c, cs, ht, hc⟩ := n.exists_text_eq_cons
    obtain ⟨-, -, hd, hq, -⟩ := Lexer.isIgnored_of_isNameChar (Lexer.isNameChar_or_of_number hc)
    exact ⟨c, cs, ht, hd, hq⟩
  cases p with
  | comma => exact ⟨_, _, rfl, by decide, by decide⟩
  | lexeme l =>
    cases l with
    | mark m =>
      cases m with
      | dots => cases hg
      | _ => exact ⟨_, _, rfl, by decide, by decide⟩
    | name text =>
      obtain ⟨c, cs, ht, hc, -⟩ := hp.1
      obtain ⟨-, -, hd, hq, -⟩ :=
        Lexer.isIgnored_of_isNameChar (.inl (Lexer.isNameChar_of_isNameStart hc))
      exact ⟨c, cs, ht, hd, hq⟩
    | int text =>
      obtain ⟨n, ht, -⟩ := IsInt.exists_numeral hp.1
      rw [spelling, Lexeme.spelling, ht]
      exact hnumber n
    | float text =>
      obtain ⟨n, ht, -⟩ := IsFloat.exists_numeral hp.1
      rw [spelling, Lexeme.spelling, ht]
      exact hnumber n
    | string value => cases hg
    | block value => cases hg

/-- What is written behind a number or a string begins with neither a period nor a quote. -/
theorem head?_joinTexts_of_startsGuarded {ps : List Piece} (ht : Tidy ps)
    (hg : startsGuarded ps = true) (last : Option Char) :
    (joinTexts last (ps.map spelling)).head? ≠ some '.' ∧
      (joinTexts last (ps.map spelling)).head? ≠ some '"' := by
  cases ps with
  | nil => simp [joinTexts]
  | cons p rest =>
    obtain ⟨c, cs, hs, hd, hq⟩ := exists_spelling_eq_cons ht.1 (by simpa [startsGuarded] using hg)
    rw [List.map_cons, hs]
    obtain h | h := head?_joinTexts_cons last c cs (rest.map spelling) <;> rw [h]
    · decide
    · simp [hd, hq]

/-- A name or a number ends with a character of names. -/
theorem exists_getLast?_spelling {l : Lexeme} (hl : l.WellFormed) :
    (∃ m, l = .mark m) ∨ (∃ value, l.plain = .string value) ∨
      ∃ last, l.spelling.getLast? = some last ∧ isNameChar last = true := by
  have hnumber : ∀ n : Number.Numeral, ∃ last, n.text.getLast? = some last ∧
      isNameChar last = true := by
    intro n
    obtain ⟨cs, d, ht, hd⟩ := n.exists_text_eq_append
    exact ⟨d, by simp [ht], by simp [isNameChar, Char.isAlphanum, hd]⟩
  cases l with
  | mark m => exact .inl ⟨m, rfl⟩
  | name text =>
    obtain ⟨c, cs, ht, hc, hcs⟩ := hl
    refine .inr (.inr ⟨(c :: cs).getLast (by simp), ?_, ?_⟩)
    · rw [Lexeme.spelling, ht, List.getLast?_eq_some_getLast]
    · obtain h | h := List.mem_cons.1 (List.getLast_mem (List.cons_ne_nil c cs))
      · rw [h]
        exact Lexer.isNameChar_of_isNameStart hc
      · exact hcs _ h
  | int text =>
    obtain ⟨n, ht, -⟩ := hl.exists_numeral
    rw [Lexeme.spelling, ht]
    exact .inr (.inr (hnumber n))
  | float text =>
    obtain ⟨n, ht, -⟩ := hl.exists_numeral
    rw [Lexeme.spelling, ht]
    exact .inr (.inr (hnumber n))
  | string value => exact .inr (.inl ⟨value, rfl⟩)
  | block value => exact .inr (.inl ⟨value, rfl⟩)

/-- What is written behind a lexeme would not be read into it. -/
theorem endsBefore_joinTexts {l : Lexeme} {rest : List Piece} (ht : Tidy (.lexeme l :: rest))
    (last : Option Char) :
    l.EndsBefore (joinTexts (l.spelling.getLast?.or last) (rest.map spelling)) := by
  obtain ⟨⟨hl, hp⟩, hg, hrest⟩ := ht
  have hguard : isLiteral (.lexeme l) = true → _ := fun h =>
    head?_joinTexts_of_startsGuarded hrest (hg h) (l.spelling.getLast?.or last)
  obtain ⟨m, rfl⟩ | ⟨value, hv⟩ | ⟨c, hc, hn⟩ := exists_getLast?_spelling hl
  · trivial
  · rw [hp] at hv
    subst hv
    exact (hguard rfl).2
  · have hhead := head?_joinTexts_of_isNameChar hn (rest.map spelling)
    rw [hc, Option.some_or] at hguard ⊢
    cases l with
    | mark m => trivial
    | name text => exact hhead
    | int text => exact not_isContinued hhead (hguard rfl).1
    | float text => exact not_isContinued hhead (hguard rfl).1
    | string value => exact (hguard rfl).2
    | block value => cases hp

/-- Tidy pieces in a row are read back as their lexemes. -/
theorem lexes_joinTexts {ps : List Piece} (ht : Tidy ps) (last : Option Char) :
    Lexer.Lexes (joinTexts last (ps.map spelling)) (ps.filterMap lexeme?) := by
  induction ps generalizing last with
  | nil => exact Lexer.lexes_nil
  | cons p rest ih =>
    have hspace : ∀ {text : List Char} {ls : List Lexeme}, Lexer.Lexes text ls →
        Lexer.Lexes ((if needsSpace last p.spelling.head? then [' '] else []) ++ text) ls := by
      intro text ls h
      split
      · exact Lexer.lexes_ignored (by decide) h
      · exact h
    rw [List.map_cons, joinTexts, List.append_assoc]
    apply hspace
    have hrest := ih ht.2.2 (p.spelling.getLast?.or last)
    cases p with
    | comma => exact Lexer.lexes_ignored (by decide) hrest
    | lexeme l =>
      obtain ⟨c, cs, hs, hi, hn, hl⟩ := Lexer.lexeme_spelling ht.1.1 (endsBefore_joinTexts ht last)
      rw [ht.1.2] at hl
      rw [spelling] at hrest ⊢
      have := Lexer.lexes_cons hi hn hl hrest
      rwa [← hs] at this

/-- Pieces that stay tidy in front of anything tidy that begins guarded. -/
def Fits (e : List Piece) : Prop :=
  ∀ rest, startsGuarded rest = true → Tidy rest → Tidy (e ++ rest)

/-- Pieces that stay tidy in front of anything tidy. -/
def Sealed (e : List Piece) : Prop := ∀ rest, Tidy rest → Tidy (e ++ rest)

theorem Sealed.fits {e : List Piece} (h : Sealed e) : Fits e := fun rest _ ht => h rest ht

theorem sealed_nil : Sealed [] := fun _ h => h

theorem Sealed.append {e f : List Piece} (he : Sealed e) (hf : Sealed f) : Sealed (e ++ f) := by
  intro rest ht
  rw [List.append_assoc]
  exact he _ (hf rest ht)

/-- A piece that is no literal may stand in front of anything. -/
theorem Sealed.cons {p : Piece} {e : List Piece} (he : Sealed e) (hp : p.Written)
    (hl : p.isLiteral = false) : Sealed (p :: e) :=
  fun rest ht => ⟨hp, fun h => absurd h (by simp [hl]), he rest ht⟩

theorem Fits.cons {p : Piece} {e : List Piece} (he : Fits e) (hp : p.Written)
    (hl : p.isLiteral = false) : Fits (p :: e) :=
  fun rest hg ht => ⟨hp, fun h => absurd h (by simp [hl]), he rest hg ht⟩

/-- A single piece fits, a literal too. -/
theorem fits_singleton {p : Piece} (hp : p.Written) : Fits [p] :=
  fun _ hg ht => ⟨hp, fun _ => hg, ht⟩

theorem Fits.append {e f : List Piece} (he : Fits e) (hf : Fits f)
    (hg : startsGuarded f = true) : Fits (e ++ f) := by
  intro rest hrest ht
  rw [List.append_assoc]
  refine he _ ?_ (hf rest hrest ht)
  cases f with
  | nil => exact hrest
  | cons p f => exact hg

theorem Sealed.append_fits {e f : List Piece} (he : Sealed e) (hf : Fits f) : Fits (e ++ f) := by
  intro rest hg ht
  rw [List.append_assoc]
  exact he _ (hf rest hg ht)

/-- What begins guarded and is sealed seals what fits in front of it. -/
theorem Fits.seal {e f : List Piece} {p : Piece} (he : Fits e) (hf : Sealed (p :: f))
    (hg : p.isGuarded = true) : Sealed (e ++ p :: f) := by
  intro rest ht
  rw [List.append_assoc]
  exact he _ (by simpa [startsGuarded] using hg) (hf rest ht)

theorem sealed_flatMap {α : Type} {xs : List α} {f : α → List Piece}
    (h : ∀ x ∈ xs, Sealed (f x)) : Sealed (xs.flatMap f) := by
  induction xs with
  | nil => exact sealed_nil
  | cons x xs ih =>
    obtain ⟨hx, hxs⟩ := List.forall_mem_cons.1 h
    exact hx.append (ih hxs)

/-- Entries that fit also fit with commas between them. -/
theorem fits_separated {es : List (List Piece)} (h : ∀ e ∈ es, Fits e) : Fits (separated es) := by
  induction es with
  | nil => exact sealed_nil.fits
  | cons e es ih =>
    obtain ⟨he, hes⟩ := List.forall_mem_cons.1 h
    cases es with
    | nil => simpa [separated] using he
    | cons f es =>
      have hcomma : Fits (.comma :: separated (f :: es)) := (ih hes).cons trivial rfl
      simpa [separated] using he.append hcomma rfl

/-- A mark seals what follows it. -/
theorem Sealed.mark {e : List Piece} (he : Sealed e) (m : Mark) : Sealed (ofMark m :: e) :=
  he.cons ⟨trivial, rfl⟩ rfl

/-- A name seals what follows it. -/
theorem Sealed.name {e : List Piece} (he : Sealed e) {name : String} (h : IsName name) :
    Sealed (ofName name :: e) :=
  he.cons ⟨h, rfl⟩ rfl

theorem Fits.mark {e : List Piece} (he : Fits e) (m : Mark) : Fits (ofMark m :: e) :=
  he.cons ⟨trivial, rfl⟩ rfl

theorem Fits.name {e : List Piece} (he : Fits e) {name : String} (h : IsName name) :
    Fits (ofName name :: e) :=
  he.cons ⟨h, rfl⟩ rfl

/-- Entries that fit are sealed by parentheses. -/
theorem sealed_parenthesized {es : List (List Piece)} (h : ∀ e ∈ es, Fits e) :
    Sealed (parenthesized es) := by
  unfold parenthesized
  split
  · exact sealed_nil
  · exact ((fits_separated h).seal (sealed_nil.mark _) rfl).mark _

end Piece

open Piece

theorem TypeRef.WellSpelled.sealed {t : TypeRef} (h : t.WellSpelled) : Sealed t.pieces := by
  induction h with
  | named h => exact sealed_nil.name h
  | list h ih => exact (ih.append (sealed_nil.mark _)).mark _
  | nonNull h hn ih => exact ih.append (sealed_nil.mark _)

/-- The pieces of a value fit where something guarded follows. -/
theorem Value.WellSpelled.fits {constant : Bool} {v : Value} (h : v.WellSpelled constant) :
    Fits v.pieces := by
  induction h with
  | var h hc => exact ((sealed_nil.name h).mark _).fits
  | int h => exact fits_singleton ⟨h, rfl⟩
  | float h => exact fits_singleton ⟨h, rfl⟩
  | string value isBlock => exact fits_singleton ⟨trivial, rfl⟩
  | boolean value =>
    cases value with
    | true => exact (sealed_nil.name (by decide)).fits
    | false => exact (sealed_nil.name (by decide)).fits
  | null => exact (sealed_nil.name (by decide)).fits
  | enum h hr => exact (sealed_nil.name h).fits
  | list h ih =>
    rw [Value.pieces, Value.listPieces_eq_map]
    exact (((fits_separated (List.forall_mem_map.2 ih)).seal (sealed_nil.mark _) rfl).mark _).fits
  | object hn h ih =>
    rw [Value.pieces, Value.memberPieces_eq_map]
    have hm := List.forall_mem_map.2 fun m hm => ((ih m hm).mark .colon).name (hn m hm)
    exact (((fits_separated hm).seal (sealed_nil.mark _) rfl).mark _).fits

theorem Argument.WellSpelled.fits {constant : Bool} {a : Argument} (h : a.WellSpelled constant) :
    Fits a.pieces :=
  (h.value.fits.mark .colon).name h.name

theorem Directive.WellSpelled.sealed {constant : Bool} {d : Directive}
    (h : d.WellSpelled constant) : Sealed d.pieces := by
  have ha : ∀ e ∈ d.arguments.map Argument.pieces, Fits e :=
    List.forall_mem_map.2 fun a ha => (h.arguments a ha).fits
  exact ((sealed_parenthesized ha).name h.name).mark _

theorem Directive.sealed_listPieces {constant : Bool} {ds : List Directive}
    (h : ∀ d ∈ ds, d.WellSpelled constant) : Sealed (Directive.listPieces ds) :=
  sealed_flatMap fun d hd => (h d hd).sealed

/-- Directives begin with a mark. -/
theorem Directive.startsGuarded_listPieces (ds : List Directive) :
    startsGuarded (Directive.listPieces ds) = true := by
  cases ds <;> rfl

/-- The pieces of a variable's declaration may end with its default. -/
theorem VariableDefinition.WellSpelled.fits {v : VariableDefinition} (h : v.WellSpelled) :
    Fits v.pieces := by
  have hd := Directive.sealed_listPieces h.directives
  have hhead : ∀ rest, Fits rest → Fits (.ofMark .dollar :: .ofName v.name :: .ofMark .colon ::
      (v.type.pieces ++ rest)) := fun rest hr =>
    (((h.type.sealed.append_fits hr).mark .colon).name h.name).mark .dollar
  rw [VariableDefinition.pieces, List.append_assoc]
  refine hhead _ ?_
  cases hv : v.defaultValue with
  | none => exact hd.fits
  | some value =>
    have hvalue := h.defaultValue value (by simp [hv])
    exact (hvalue.fits.mark .equals).append hd.fits (Directive.startsGuarded_listPieces _)

theorem Field.WellSpelled.sealed {f : Field} (h : f.WellSpelled) : Sealed f.pieces := by
  have ha : ∀ e ∈ f.arguments.map Argument.pieces, Fits e :=
    List.forall_mem_map.2 fun a ha => (h.arguments a ha).fits
  have hrest := ((sealed_parenthesized ha).append (Directive.sealed_listPieces h.directives)).name
    h.name
  unfold Field.pieces
  cases hn : f.aliasName with
  | none => exact hrest
  | some name => exact (hrest.mark .colon).name (h.aliasName name (by simp [hn]))

theorem Spread.WellSpelled.sealed {s : Spread} (h : s.WellSpelled) : Sealed s.pieces :=
  ((Directive.sealed_listPieces h.directives).name h.name).mark _

theorem InlineHead.WellSpelled.sealed {head : InlineHead} (h : head.WellSpelled) :
    Sealed head.pieces := by
  have hd := Directive.sealed_listPieces h.directives
  unfold InlineHead.pieces
  cases ht : head.typeCondition with
  | none => exact hd.mark _
  | some type => exact ((hd.name (h.typeCondition type (by simp [ht]))).name (by decide)).mark _

theorem Selection.WellSpelled.sealed {s : Selection} (h : s.WellSpelled) : Sealed s.pieces := by
  induction h with
  | leaf h => exact h.sealed
  | nested h hs ih =>
    rw [Selection.pieces, Selection.listPieces_eq_flatMap]
    exact h.sealed.append (((sealed_flatMap ih).append (sealed_nil.mark _)).mark _)
  | spread h => exact h.sealed
  | inline h hs ih =>
    rw [Selection.pieces, Selection.listPieces_eq_flatMap]
    exact h.sealed.append (((sealed_flatMap ih).append (sealed_nil.mark _)).mark _)

theorem Selection.sealed_setPieces {set : List Selection} (h : ∀ s ∈ set, s.WellSpelled) :
    Sealed (Selection.setPieces set) := by
  rw [Selection.setPieces, Selection.listPieces_eq_flatMap]
  exact ((sealed_flatMap fun s hs => (h s hs).sealed).append (sealed_nil.mark _)).mark _

theorem Operation.WellSpelled.sealed_headPieces {op : Operation} (h : op.WellSpelled) :
    Sealed op.headPieces := by
  have hv : ∀ e ∈ op.variableDefinitions.map VariableDefinition.pieces, Fits e :=
    List.forall_mem_map.2 fun v hv => (h.variableDefinitions v hv).fits
  have hname : Sealed (op.name.toList.map Piece.ofName) := by
    cases hn : op.name with
    | none => exact sealed_nil
    | some name => exact sealed_nil.name (h.name name (by simp [hn]))
  have hkeyword : IsName op.kind.keyword := by cases op.kind <;> decide
  exact ((hname.append (sealed_parenthesized hv)).append
    (Directive.sealed_listPieces h.directives)).name hkeyword

theorem Operation.WellSpelled.sealed {op : Operation} (h : op.WellSpelled) :
    Sealed op.pieces := by
  have hset := Selection.sealed_setPieces h.selections
  unfold Operation.pieces
  split
  · exact hset
  · exact h.sealed_headPieces.append hset

theorem Fragment.WellSpelled.sealed {f : Fragment} (h : f.WellSpelled) : Sealed f.pieces := by
  have hset := Selection.sealed_setPieces h.selections
  have hrest := (Directive.sealed_listPieces h.directives).append hset
  exact (((hrest.name h.typeCondition).name (by decide)).name h.name).name (by decide)

namespace Document

/-- The pieces of a document are tidy when its definitions can be written. -/
theorem tidy_pieces {d : Document} (h : ∀ x ∈ d.definitions, x.WellSpelled) : Tidy d.pieces := by
  have hsealed : Sealed d.pieces := by
    refine sealed_flatMap fun x hx => ?_
    cases x with
    | operation op => exact Operation.WellSpelled.sealed (h _ hx)
    | fragment f => exact Fragment.WellSpelled.sealed (h _ hx)
  simpa using hsealed [] trivial

/-- The reduced form of a document is read back as the document's lexemes. -/
theorem exists_tokenize_print {d : Document} (h : ∀ x ∈ d.definitions, x.WellSpelled) :
    ∃ stream, Lexer.tokenize d.print = .ok stream ∧
      stream.tokens.map Token.lexeme = d.lexemes := by
  obtain ⟨stream, hs, hl⟩ := lexes_joinTexts (tidy_pieces h) none .start
  refine ⟨stream, ?_, hl⟩
  rw [Lexer.tokenize, print, String.toList_ofList]
  exact hs

end Document

end Safelist
