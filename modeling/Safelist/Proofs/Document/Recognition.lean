import Safelist.Document.Reading
import Safelist.Proofs.Document.WellFormed

/-!
# The grammar reads what documents consist of

The lexemes of each phrase lead the machine from the place before the phrase to
the place behind it, with the phrase added to what is open, whatever comes next.
The main statement is that the lexemes of a well-formed document lead to the
document.
-/

namespace Safelist

open Lexical

namespace Piece

/-- The lexemes among some pieces. -/
def lexemes (ps : List Piece) : List Lexeme := ps.filterMap lexeme?

@[simp] theorem lexemes_nil : lexemes [] = [] := rfl

@[simp] theorem lexemes_append (ps qs : List Piece) :
    lexemes (ps ++ qs) = lexemes ps ++ lexemes qs :=
  List.filterMap_append

@[simp] theorem lexemes_cons_comma (ps : List Piece) : lexemes (.comma :: ps) = lexemes ps := rfl

@[simp] theorem lexemes_cons_ofMark (m : Mark) (ps : List Piece) :
    lexemes (ofMark m :: ps) = .mark m :: lexemes ps := rfl

@[simp] theorem lexemes_cons_ofName (name : String) (ps : List Piece) :
    lexemes (ofName name :: ps) = .name name :: lexemes ps := rfl

@[simp] theorem lexemes_flatMap {α : Type} (xs : List α) (f : α → List Piece) :
    lexemes (xs.flatMap f) = xs.flatMap fun x => lexemes (f x) := by
  induction xs with
  | nil => rfl
  | cons x xs ih => rw [List.flatMap_cons, lexemes_append, ih, List.flatMap_cons]

/-- Commas between entries are no lexemes. -/
@[simp] theorem lexemes_separated (es : List (List Piece)) :
    lexemes (separated es) = es.flatMap lexemes := by
  induction es with
  | nil => rfl
  | cons e es ih =>
    cases es with
    | nil => simp [separated]
    | cons f es =>
      have hs : separated (e :: f :: es) = e ++ .comma :: separated (f :: es) := by
        simp [separated]
      rw [hs, lexemes_append, lexemes_cons_comma, ih]
      rfl

/-- Entries in parentheses, or nothing. -/
theorem lexemes_parenthesized (es : List (List Piece)) (hne : es ≠ []) :
    lexemes (parenthesized es) =
      .mark .openParen :: (es.flatMap lexemes ++ [.mark .closeParen]) := by
  have : es.isEmpty = false := by simpa using hne
  simp [parenthesized, this]

@[simp] theorem parenthesized_nil : parenthesized [] = [] := rfl

end Piece

namespace Grammar

namespace State

/-- The state after some lexemes, if each can stand where it does. -/
def read (s : State) : List Lexeme → Option State
  | [] => some s
  | l :: rest => (s.next l).bind fun t => read t rest

/-- A run succeeds when its lexemes lead to a place where a document may end. -/
theorem run_eq_ok_iff {s : State} {stop : Position} {tokens : List Token} {d : Document} :
    s.run stop tokens = .ok d ↔
      ∃ t, s.read (tokens.map Token.lexeme) = some t ∧ t.document? = some d := by
  induction tokens generalizing s with
  | nil =>
    rw [run]
    cases hd : s.document? <;> simp [read, hd]
  | cons token rest ih =>
    rw [run, List.map_cons, read]
    cases hn : s.next token.lexeme with
    | none => simp
    | some t => simp [ih]

end State

variable {ds : List Definition} {l : Lexeme} {rest : List Lexeme}

/-- A lexeme that leads to another place is read on the way there. -/
theorem read_to {f g : Focus} (h : f.next l = some (.to g)) :
    State.read ⟨ds, f⟩ (l :: rest) = State.read ⟨ds, g⟩ rest := by
  simp [State.read, State.next, h]

/-- A lexeme that completes a definition is read as its end. -/
theorem read_complete {f : Focus} {x : Definition} (h : f.next l = some (.complete x)) :
    State.read ⟨ds, f⟩ (l :: rest) = State.read ⟨ds ++ [x], .between⟩ rest := by
  simp [State.read, State.next, h]

/-- Places at which the next lexeme does the same cannot be told apart. -/
theorem read_congr {f g : Focus} (h : f.next l = g.next l) :
    State.read ⟨ds, f⟩ (l :: rest) = State.read ⟨ds, g⟩ (l :: rest) := by
  simp [State.read, State.next, h]

/-- A bracket closes the list that a type is in, whether the type is marked or not. -/
theorem next_closeBracket (op : Operation) (name : String) (depth : Nat) (t : TypeRef)
    (marked : Bool) :
    (Focus.typeEnd op name (depth + 1) t marked).next (.mark .closeBracket) =
      some (.to (.typeEnd op name depth (.list t) false)) := by
  cases marked <;> rfl

/-- A type is read, inside any number of brackets. -/
theorem read_type {t : TypeRef} (ht : t.WellSpelled) (op : Operation) (name : String)
    (depth : Nat) :
    State.read ⟨ds, .typeStart op name depth⟩ (Piece.lexemes t.pieces ++ rest) =
      State.read ⟨ds, .typeEnd op name depth t t.isNonNull⟩ rest := by
  induction ht generalizing depth rest with
  | named h => exact read_to rfl
  | list h ih =>
    simp only [TypeRef.pieces, Piece.lexemes_cons_ofMark, Piece.lexemes_append, List.cons_append,
      List.append_assoc, Piece.lexemes_nil, List.nil_append]
    rw [read_to rfl, ih]
    exact read_to (next_closeBracket ..)
  | nonNull h hn ih =>
    simp only [TypeRef.pieces, Piece.lexemes_cons_ofMark, Piece.lexemes_append, List.cons_append,
      List.append_assoc, Piece.lexemes_nil, List.nil_append]
    rw [ih, hn]
    exact read_to rfl

/-- A value does not begin with the bracket that closes a list. -/
theorem exists_lexemes_value (v : Value) :
    ∃ l ls, Piece.lexemes v.pieces = l :: ls ∧ l ≠ .mark .closeBracket := by
  cases v with
  | boolean value => cases value <;> exact ⟨_, _, rfl, by decide⟩
  | list items => exact ⟨_, _, rfl, by decide⟩
  | object members => exact ⟨_, _, rfl, by decide⟩
  | _ => exact ⟨_, _, rfl, by simp⟩

/-- Inside a list, a lexeme that does not close it begins an item. -/
theorem next_list (outer : Slot) (items : List Value) (h : l ≠ .mark .closeBracket) :
    (Focus.list outer items).next l = (Focus.value (.item outer items)).next l := by
  cases l with
  | mark m => cases m <;> first | rfl | exact absurd rfl h
  | _ => rfl

/-- A name that means nothing else is an enumeration value. -/
theorem valueOfName_eq_enum {name : String} (h : name ∉ reservedValues) :
    valueOfName name = .enum name := by
  simp only [reservedValues, List.mem_cons, List.not_mem_nil, or_false, not_or] at h
  simp [valueOfName, h]

/-- A value is read into any slot that asks for a constant or not, as given. -/
def IsRead (ds : List Definition) (constant : Bool) (v : Value) : Prop :=
  ∀ (slot : Slot) (rest : List Lexeme), slot.isConstant = constant →
    State.read ⟨ds, .value slot⟩ (Piece.lexemes v.pieces ++ rest) =
      State.read ⟨ds, slot.fill v.plain⟩ rest

/-- Items are read one after another if each of them is read. -/
theorem read_items {outer : Slot} {items : List Value}
    (hv : ∀ v ∈ items, IsRead ds outer.isConstant v) (before : List Value) :
    State.read ⟨ds, .list outer before⟩
        (items.flatMap (fun v => Piece.lexemes v.pieces) ++ rest) =
      State.read ⟨ds, .list outer (before ++ items.map Value.plain)⟩ rest := by
  induction items generalizing before with
  | nil => simp
  | cons v items ih =>
    obtain ⟨hfirst, hrest⟩ := List.forall_mem_cons.1 hv
    obtain ⟨l, ls, hl, hne⟩ := exists_lexemes_value v
    have hread := hfirst (.item outer before)
      (items.flatMap (fun v => Piece.lexemes v.pieces) ++ rest) rfl
    rw [hl] at hread
    rw [List.flatMap_cons, List.append_assoc, hl, List.cons_append, read_congr (next_list _ _ hne),
      ← List.cons_append, hread, Slot.fill, ih hrest]
    simp

/-- Members are read one after another if the value of each is read. -/
theorem read_members {outer : Slot} {members : List (String × Value)}
    (hv : ∀ m ∈ members, IsRead ds outer.isConstant m.2) (before : List (String × Value)) :
    State.read ⟨ds, .object outer before⟩
        (members.flatMap (fun m => .name m.1 :: .mark .colon :: Piece.lexemes m.2.pieces) ++ rest) =
      State.read ⟨ds, .object outer (before ++ members.map fun m => (m.1, m.2.plain))⟩ rest := by
  induction members generalizing before with
  | nil => simp
  | cons m members ih =>
    obtain ⟨hfirst, hrest⟩ := List.forall_mem_cons.1 hv
    rw [List.flatMap_cons, List.append_assoc, List.cons_append, List.cons_append]
    rw [read_to rfl, read_to rfl, hfirst (.member outer before m.1) _ rfl, Slot.fill, ih hrest]
    simp

/-- A value that can be written is read. -/
theorem isRead_of_wellSpelled {constant : Bool} {v : Value} (hv : v.WellSpelled constant) :
    IsRead ds constant v := by
  induction hv with
  | var h hconst =>
    intro slot rest hc
    have hd : (Focus.value slot).next (.mark .dollar) = some (.to (.variableUse slot)) := by
      simp [Focus.next, Slot.next, hc, hconst]
    exact (read_to hd).trans (read_to rfl)
  | int h => exact fun slot rest hc => read_to rfl
  | float h => exact fun slot rest hc => read_to rfl
  | string value isBlock => exact fun slot rest hc => read_to rfl
  | boolean value => cases value <;> exact fun slot rest hc => read_to rfl
  | null => exact fun slot rest hc => read_to rfl
  | @enum name h hr =>
    intro slot rest hc
    have he : (Focus.value slot).next (.name name) = some (.to (slot.fill (.enum name))) := by
      rw [← valueOfName_eq_enum hr]
      rfl
    exact read_to he
  | list h ih =>
    intro slot rest hc
    simp only [Value.pieces, Value.listPieces_eq_map, Piece.lexemes_cons_ofMark,
      Piece.lexemes_append, Piece.lexemes_separated, List.flatMap_map, Piece.lexemes_nil,
      List.cons_append, List.append_assoc, List.nil_append]
    rw [read_to rfl, read_items (hc ▸ ih), read_to rfl, Value.plain_list]
    rfl
  | object hn h ih =>
    intro slot rest hc
    simp only [Value.pieces, Value.memberPieces_eq_map, Piece.lexemes_cons_ofMark,
      Piece.lexemes_cons_ofName, Piece.lexemes_append, Piece.lexemes_separated, List.flatMap_map,
      Piece.lexemes_nil, List.cons_append, List.append_assoc, List.nil_append]
    rw [read_to rfl, read_members (hc ▸ ih), read_to rfl, Value.plain_object]
    rfl

/-- Several more arguments. -/
def Holder.attachAll (as : List Argument) : Holder → Holder
  | .field block f => .field block { f with arguments := f.arguments ++ as }
  | .directive site d => .directive site { d with arguments := d.arguments ++ as }

theorem Holder.attachAll_nil (holder : Holder) : holder.attachAll [] = holder := by
  cases holder <;> simp [attachAll]

theorem Holder.attachAll_attach (holder : Holder) (a : Argument) (as : List Argument) :
    (holder.attach a).attachAll as = holder.attachAll (a :: as) := by
  cases holder <;> simp [attachAll, attach]

theorem Holder.isConstant_attach (holder : Holder) (a : Argument) :
    (holder.attach a).isConstant = holder.isConstant := by
  cases holder <;> rfl

theorem Holder.arguments_attachAll (holder : Holder) (as : List Argument) :
    (holder.attachAll as).arguments = holder.arguments ++ as := by
  cases holder <;> rfl

/-- Arguments are read one after another. -/
theorem read_arguments {holder : Holder} {as : List Argument}
    (h : ∀ a ∈ as, a.WellSpelled holder.isConstant) :
    State.read ⟨ds, .arguments holder⟩
        (as.flatMap (fun a => Piece.lexemes a.pieces) ++ rest) =
      State.read ⟨ds, .arguments (holder.attachAll (as.map (Argument.map Value.plain)))⟩ rest := by
  induction as generalizing holder with
  | nil => rw [List.map_nil, holder.attachAll_nil, List.flatMap_nil, List.nil_append]
  | cons a as ih =>
    obtain ⟨ha, has⟩ := List.forall_mem_cons.1 h
    have hv : IsRead ds _ a.value := isRead_of_wellSpelled ha.value
    rw [List.flatMap_cons, List.append_assoc, Argument.pieces, Piece.lexemes_cons_ofName,
      Piece.lexemes_cons_ofMark, List.cons_append, List.cons_append]
    rw [read_to rfl, read_to rfl, hv (.argument holder a.name) _ rfl, Slot.fill]
    rw [ih (by rwa [holder.isConstant_attach]), Holder.attachAll_attach]
    rfl

/-- Arguments in parentheses are read up to the closing one. -/
theorem read_parenthesized (holder : Holder) {as : List Argument} {f : Focus} (hne : as ≠ [])
    (hf : f.next (.mark .openParen) = some (.to (.arguments holder)))
    (h : ∀ a ∈ as, a.WellSpelled holder.isConstant) :
    State.read ⟨ds, f⟩ (Piece.lexemes (Piece.parenthesized (as.map Argument.pieces)) ++ rest) =
      State.read ⟨ds, .site (holder.attachAll (as.map (Argument.map Value.plain))).close⟩
        rest := by
  have hclose : (Focus.arguments (holder.attachAll (as.map (Argument.map Value.plain)))).next
      (.mark .closeParen) = some (.to (.site
        (holder.attachAll (as.map (Argument.map Value.plain))).close)) := by
    simp [Focus.next, Holder.arguments_attachAll, hne]
  rw [Piece.lexemes_parenthesized _ (by simpa using hne), List.flatMap_map, List.cons_append,
    List.append_assoc, read_to hf, read_arguments h]
  exact read_to hclose

/-- Several more directives. -/
def Site.attachAll (dirs : List Directive) : Site → Site
  | .operation op => .operation { op with directives := op.directives ++ dirs }
  | .variableOf op v => .variableOf op { v with directives := v.directives ++ dirs }
  | .fragment f => .fragment { f with directives := f.directives ++ dirs }
  | .field block f => .field block { f with directives := f.directives ++ dirs }
  | .spread block s => .spread block { s with directives := s.directives ++ dirs }
  | .inline block head => .inline block { head with directives := head.directives ++ dirs }

theorem Site.attachAll_nil (site : Site) : site.attachAll [] = site := by
  cases site <;> simp [attachAll]

theorem Site.attachAll_attach (site : Site) (d : Directive) (dirs : List Directive) :
    (site.attach d).attachAll dirs = site.attachAll (d :: dirs) := by
  cases site <;> simp [attachAll, attach]

theorem Site.isConstant_attach (site : Site) (d : Directive) :
    (site.attach d).isConstant = site.isConstant := by
  cases site <;> rfl

/-- Behind the name of a directive, everything but its arguments follows the directive. -/
theorem next_directiveName {site : Site} {name : String} (hp : l ≠ .mark .openParen) :
    (Focus.directiveName site name).next l = (Focus.site (site.attach ⟨name, []⟩)).next l := by
  cases l with
  | mark m => cases m <;> first | rfl | exact absurd rfl hp
  | _ => rfl

/-- Directives are read one after another. The place before them need not be the site
itself, if it does the same with an at sign and with the lexeme behind them. -/
theorem read_directives (f : Focus) (site : Site) {dirs : List Directive}
    (h : ∀ d ∈ dirs, d.WellSpelled site.isConstant)
    (hat : f.next (.mark .atSign) = some (.to (.directiveSign site)))
    (hl : f.next l = (Focus.site site).next l) (hp : l ≠ .mark .openParen) :
    State.read ⟨ds, f⟩ (Piece.lexemes (Directive.listPieces dirs) ++ l :: rest) =
      State.read ⟨ds, .site (site.attachAll (dirs.map (Directive.map Value.plain)))⟩
        (l :: rest) := by
  induction dirs generalizing f site with
  | nil =>
    rw [List.map_nil, site.attachAll_nil]
    exact read_congr hl
  | cons d dirs ih =>
    obtain ⟨hd, hdirs⟩ := List.forall_mem_cons.1 h
    rw [← site.isConstant_attach (d.map Value.plain)] at hdirs
    rw [Directive.listPieces, List.flatMap_cons, Piece.lexemes_append, List.append_assoc,
      Directive.pieces, Piece.lexemes_cons_ofMark, Piece.lexemes_cons_ofName, List.cons_append,
      List.cons_append, read_to hat, read_to rfl, List.map_cons, ← Site.attachAll_attach]
    by_cases ha : d.arguments = []
    · have hmap : d.map Value.plain = ⟨d.name, []⟩ := by simp [Directive.map, ha]
      rw [ha, List.map_nil, Piece.parenthesized_nil, Piece.lexemes_nil, List.nil_append]
      refine ih _ _ hdirs ?_ ?_
      · rw [hmap]
        rfl
      · rw [hmap]
        exact next_directiveName hp
    · rw [read_parenthesized (.directive site ⟨d.name, []⟩) ha rfl hd.arguments]
      exact ih _ _ hdirs rfl rfl

/-- Inside a selection set, these lexemes begin a selection or close the set. -/
def ContinuesSet (l : Lexeme) : Prop :=
  (∃ name, l = .name name) ∨ l = .mark .dots ∨ l = .mark .closeBrace

/-- What a name that begins a field may turn out to be, is one with what follows it. -/
theorem read_field_tail {block : Block} {f : Field} {g : Focus} {as : List Argument}
    {dirs : List Directive} (has : ∀ a ∈ as, a.WellSpelled false)
    (hdirs : ∀ d ∈ dirs, d.WellSpelled false)
    (hg : ∀ l, l ≠ .mark .colon → g.next l = afterFieldName block f l)
    (hc : l ≠ .mark .colon) (hp : l ≠ .mark .openParen) :
    State.read ⟨ds, g⟩ (Piece.lexemes (Piece.parenthesized (as.map Argument.pieces)) ++
        (Piece.lexemes (Directive.listPieces dirs) ++ l :: rest)) =
      State.read ⟨ds, .site (.field block
        { f with
          arguments := f.arguments ++ as.map (Argument.map Value.plain)
          directives := f.directives ++ dirs.map (Directive.map Value.plain) })⟩ (l :: rest) := by
  by_cases ha : as = []
  · subst ha
    rw [List.map_nil, Piece.parenthesized_nil, Piece.lexemes_nil, List.nil_append]
    have hl : g.next l = (Focus.site (.field block f)).next l := by
      rw [hg l hc, afterFieldName, if_neg hp]
      rfl
    rw [read_directives g (.field block f) hdirs ((hg _ (by simp)).trans rfl) hl hp]
    simp [Site.attachAll]
  · rw [read_parenthesized (.field block f) ha ((hg _ (by simp)).trans rfl) has]
    exact read_directives _ _ hdirs rfl rfl hp

/-- A name that no colon follows is that of a field. -/
theorem next_fieldStart {block : Block} {name : String} (hc : l ≠ .mark .colon) :
    (Focus.fieldStart block name).next l = afterFieldName block (.plain name) l := by
  cases l with
  | mark m => cases m <;> first | rfl | exact absurd rfl hc
  | _ => rfl

/-- A field is read up to its selection set. -/
theorem read_field {f : Field} (hf : f.WellSpelled) (block : Block) (hc : l ≠ .mark .colon)
    (hp : l ≠ .mark .openParen) :
    State.read ⟨ds, .block block⟩ (Piece.lexemes f.pieces ++ l :: rest) =
      State.read ⟨ds, .site (.field block (f.map Value.plain id))⟩ (l :: rest) := by
  obtain ⟨aliasName, name, arguments, directives⟩ := f
  cases aliasName with
  | none =>
    simp only [Field.pieces, Piece.lexemes_append, Piece.lexemes_cons_ofName, List.nil_append,
      List.cons_append, List.append_assoc]
    rw [read_to rfl, read_field_tail hf.arguments hf.directives
      (fun l hl => next_fieldStart hl) hc hp]
    rfl
  | some aliasName =>
    simp only [Field.pieces, Piece.lexemes_append, Piece.lexemes_cons_ofName,
      Piece.lexemes_cons_ofMark, List.nil_append, List.cons_append, List.append_assoc]
    rw [read_to rfl, read_to rfl, read_to rfl, read_field_tail hf.arguments hf.directives
      (fun l hl => rfl) hc hp]
    rfl

/-- The use of a fragment is read up to what follows it. -/
theorem read_spread {s : Spread} (hs : s.WellSpelled) (block : Block)
    (hp : l ≠ .mark .openParen) :
    State.read ⟨ds, .block block⟩ (Piece.lexemes s.pieces ++ l :: rest) =
      State.read ⟨ds, .site (.spread block (s.map Value.plain))⟩ (l :: rest) := by
  have hname : (Focus.dots block).next (.name s.name) =
      some (.to (.site (.spread block ⟨s.name, []⟩))) := by
    simp [Focus.next, hs.name_ne]
  simp only [Spread.pieces, Piece.lexemes_cons_ofName, Piece.lexemes_cons_ofMark,
    List.cons_append]
  rw [read_to rfl, read_to hname,
    read_directives _ (.spread block ⟨s.name, []⟩) hs.directives rfl rfl hp]
  rfl

/-- The head of an inline fragment is read up to its selection set. -/
theorem read_inlineHead {head : InlineHead} (hh : head.WellSpelled) (block : Block) :
    State.read ⟨ds, .block block⟩ (Piece.lexemes head.pieces ++ .mark .openBrace :: rest) =
      State.read ⟨ds, .block (.inline block (head.map Value.plain) [])⟩ rest := by
  obtain ⟨typeCondition, directives⟩ := head
  cases typeCondition with
  | none =>
    simp only [InlineHead.pieces, Piece.lexemes_cons_ofMark, List.nil_append, List.cons_append]
    rw [read_to rfl, read_directives (.dots block) (.inline block ⟨none, []⟩) hh.directives rfl
      rfl (by decide)]
    exact read_to rfl
  | some type =>
    simp only [InlineHead.pieces, Piece.lexemes_cons_ofName, Piece.lexemes_cons_ofMark,
      List.nil_append, List.cons_append]
    rw [read_to rfl, read_to rfl, read_to rfl,
      read_directives _ (.inline block ⟨some type, []⟩) hh.directives rfl rfl (by decide)]
    exact read_to rfl

/-- Several more selections. -/
def Block.addAll (set : List Selection) : Block → Block
  | .operation op => .operation { op with selections := op.selections ++ set }
  | .fragment f => .fragment { f with selections := f.selections ++ set }
  | .nested outer field selections => .nested outer field (selections ++ set)
  | .inline outer head selections => .inline outer head (selections ++ set)

theorem Block.addAll_nil (block : Block) : block.addAll [] = block := by
  cases block <;> simp [addAll]

theorem Block.addAll_add (block : Block) (s : Selection) (set : List Selection) :
    (block.add s).addAll set = block.addAll (s :: set) := by
  cases block <;> simp [addAll, add]

theorem Block.selections_addAll (block : Block) (set : List Selection) :
    (block.addAll set).selections = block.selections ++ set := by
  cases block <;> rfl

/-- A selection is read into any block, whatever selection or brace follows it. -/
def IsSelected (ds : List Definition) (s : Selection) : Prop :=
  ∀ (block : Block) (l : Lexeme) (rest : List Lexeme), ContinuesSet l →
    State.read ⟨ds, .block block⟩ (Piece.lexemes s.pieces ++ l :: rest) =
      State.read ⟨ds, .block (block.add (s.map Value.plain id))⟩ (l :: rest)

/-- A field begins with a name. -/
theorem exists_lexemes_field (f : Field) :
    ∃ name ls, Piece.lexemes f.pieces = .name name :: ls := by
  obtain ⟨aliasName, name, arguments, directives⟩ := f
  cases aliasName <;> exact ⟨_, _, rfl⟩

/-- A selection begins with a name or with dots. -/
theorem exists_lexemes_selection (s : Selection) :
    ∃ l ls, Piece.lexemes s.pieces = l :: ls ∧ ContinuesSet l := by
  cases s with
  | leaf f =>
    obtain ⟨name, ls, h⟩ := exists_lexemes_field f
    exact ⟨_, ls, h, .inl ⟨name, rfl⟩⟩
  | nested f set =>
    obtain ⟨name, ls, h⟩ := exists_lexemes_field f
    rw [Selection.pieces, Piece.lexemes_append, h]
    exact ⟨_, _, rfl, .inl ⟨name, rfl⟩⟩
  | spread s => exact ⟨_, _, rfl, .inr (.inl rfl)⟩
  | inline head set => exact ⟨_, _, rfl, .inr (.inl rfl)⟩

/-- Selections are read one after another up to the brace that closes their set. -/
theorem read_selections {block : Block} {set : List Selection}
    (h : ∀ s ∈ set, IsSelected ds s) :
    State.read ⟨ds, .block block⟩ (set.flatMap (fun s => Piece.lexemes s.pieces) ++
        .mark .closeBrace :: rest) =
      State.read ⟨ds, .block (block.addAll (set.map (Selection.map Value.plain id)))⟩
        (.mark .closeBrace :: rest) := by
  induction set generalizing block with
  | nil => rw [List.map_nil, block.addAll_nil, List.flatMap_nil, List.nil_append]
  | cons s set ih =>
    obtain ⟨hs, hset⟩ := List.forall_mem_cons.1 h
    obtain ⟨l, ls, hl, hc⟩ : ∃ l ls, set.flatMap (fun s => Piece.lexemes s.pieces) ++
        .mark .closeBrace :: rest = l :: ls ∧ ContinuesSet l := by
      cases set with
      | nil => exact ⟨_, _, rfl, .inr (.inr rfl)⟩
      | cons t set =>
        obtain ⟨l, ls, hl, hc⟩ := exists_lexemes_selection t
        exact ⟨l, _, by rw [List.flatMap_cons, hl]; rfl, hc⟩
    rw [List.flatMap_cons, List.append_assoc, hl, hs block l ls hc, ← hl, ih hset,
      Block.addAll_add]
    rfl

/-- A closing brace closes a set to which selections have been added. -/
theorem next_closeBrace (block : Block) {set : List Selection} (hne : set ≠ []) :
    (Focus.block (block.addAll (set.map (Selection.map Value.plain id)))).next
        (.mark .closeBrace) =
      some (block.addAll (set.map (Selection.map Value.plain id))).close := by
  simp [Focus.next, Block.next, Block.selections_addAll, hne]

/-- What continues a set can be told from what may follow a field. -/
theorem ContinuesSet.next_field (h : ContinuesSet l) (block : Block) (f : Field) :
    (Focus.site (.field block f)).next l = (Focus.block (block.add (.leaf f))).next l := by
  obtain ⟨name, rfl⟩ | rfl | rfl := h <;> rfl

theorem ContinuesSet.next_spread (h : ContinuesSet l) (block : Block) (s : Spread) :
    (Focus.site (.spread block s)).next l = (Focus.block (block.add (.spread s))).next l := by
  obtain ⟨name, rfl⟩ | rfl | rfl := h <;> rfl

theorem ContinuesSet.ne_openParen (h : ContinuesSet l) : l ≠ .mark .openParen := by
  obtain ⟨name, rfl⟩ | rfl | rfl := h <;> simp

theorem ContinuesSet.ne_colon (h : ContinuesSet l) : l ≠ .mark .colon := by
  obtain ⟨name, rfl⟩ | rfl | rfl := h <;> simp

/-- A selection that can be written and holds no empty set is read. -/
theorem isSelected_of_wellSpelled {s : Selection} (hs : s.WellSpelled) (hf : s.Filled) :
    IsSelected ds s := by
  induction hs with
  | leaf h =>
    intro block l rest hl
    rw [Selection.pieces, read_field h block hl.ne_colon hl.ne_openParen]
    exact read_congr (hl.next_field block _)
  | @nested f set h hs ih =>
    cases hf with
    | nested _ hne hfilled =>
    intro block l rest hl
    have hset : ∀ s ∈ set, IsSelected ds s := fun s hs => ih s hs (hfilled s hs)
    simp only [Selection.pieces, Selection.listPieces_eq_flatMap, Piece.lexemes_append,
      Piece.lexemes_cons_ofMark, Piece.lexemes_flatMap, Piece.lexemes_nil, List.append_assoc,
      List.cons_append, List.nil_append]
    rw [read_field h block (by simp) (by simp), read_to rfl, read_selections hset,
      read_to (next_closeBrace _ hne), Selection.map, Selection.mapSet_eq_map]
    rfl
  | spread h =>
    intro block l rest hl
    rw [Selection.pieces, read_spread h block hl.ne_openParen]
    exact read_congr (hl.next_spread block _)
  | @inline head set h hs ih =>
    cases hf with
    | inline _ hne hfilled =>
    intro block l rest hl
    have hset : ∀ s ∈ set, IsSelected ds s := fun s hs => ih s hs (hfilled s hs)
    simp only [Selection.pieces, Selection.listPieces_eq_flatMap, Piece.lexemes_append,
      Piece.lexemes_cons_ofMark, Piece.lexemes_flatMap, Piece.lexemes_nil, List.append_assoc,
      List.cons_append, List.nil_append]
    rw [read_inlineHead h block, read_selections hset, read_to (next_closeBrace _ hne),
      Selection.map, Selection.mapSet_eq_map]
    rfl

/-- Inside the parentheses of variables, these lexemes begin a variable or close the list. -/
def ContinuesVariables (l : Lexeme) : Prop := l = .mark .dollar ∨ l = .mark .closeParen

theorem ContinuesVariables.ne_openParen (h : ContinuesVariables l) : l ≠ .mark .openParen := by
  obtain rfl | rfl := h <;> simp

/-- What continues the variables is the same to the last of them, with or without default. -/
theorem ContinuesVariables.next_typeEnd (h : ContinuesVariables l) (op : Operation)
    (name : String) (type : TypeRef) (marked : Bool) :
    (Focus.typeEnd op name 0 type marked).next l =
      (Focus.site (.variableOf op ⟨name, type, none, []⟩)).next l := by
  obtain rfl | rfl := h <;> cases marked <;> rfl

theorem ContinuesVariables.next_site (h : ContinuesVariables l) (op : Operation)
    (v : VariableDefinition) :
    (Focus.site (.variableOf op v)).next l = (Focus.variableDefinitions (op.declare v)).next l := by
  obtain rfl | rfl := h <;> rfl

/-- A variable's declaration is read. -/
theorem read_variable {v : VariableDefinition} (hv : v.WellSpelled) (op : Operation)
    (hl : ContinuesVariables l) :
    State.read ⟨ds, .variableDefinitions op⟩ (Piece.lexemes v.pieces ++ l :: rest) =
      State.read ⟨ds, .variableDefinitions (op.declare (v.map Value.plain))⟩ (l :: rest) := by
  obtain ⟨name, type, defaultValue, directives⟩ := v
  rw [← read_congr (hl.next_site op _)]
  cases defaultValue with
  | none =>
    have hat : ∀ marked, (Focus.typeEnd op name 0 type marked).next (.mark .atSign) =
        some (.to (.directiveSign (.variableOf op ⟨name, type, none, []⟩))) := by
      intro marked
      cases marked <;> rfl
    simp only [VariableDefinition.pieces, Piece.lexemes_cons_ofMark, Piece.lexemes_cons_ofName,
      Piece.lexemes_append, List.append_nil, List.append_assoc, List.cons_append]
    rw [read_to rfl, read_to rfl, read_to rfl, read_type hv.type, read_directives _ _ hv.directives
      (hat _) (hl.next_typeEnd ..) hl.ne_openParen]
    rfl
  | some value =>
    have hequals : ∀ marked, (Focus.typeEnd op name 0 type marked).next (.mark .equals) =
        some (.to (.value (.defaultOf op name type))) := by
      intro marked
      cases marked <;> rfl
    have hvalue : IsRead ds true value := isRead_of_wellSpelled (hv.defaultValue value rfl)
    simp only [VariableDefinition.pieces, Piece.lexemes_cons_ofMark, Piece.lexemes_cons_ofName,
      Piece.lexemes_append, List.append_assoc, List.cons_append]
    rw [read_to rfl, read_to rfl, read_to rfl, read_type hv.type, read_to (hequals _),
      hvalue _ _ rfl, Slot.fill, read_directives _ _ hv.directives rfl rfl hl.ne_openParen]
    rfl

/-- Variables are read one after another up to the parenthesis that closes them. -/
theorem read_variables {vs : List VariableDefinition} (h : ∀ v ∈ vs, v.WellSpelled)
    (op : Operation) :
    State.read ⟨ds, .variableDefinitions op⟩ (vs.flatMap (fun v => Piece.lexemes v.pieces) ++
        .mark .closeParen :: rest) =
      State.read ⟨ds, .variableDefinitions { op with
        variableDefinitions :=
          op.variableDefinitions ++ vs.map (VariableDefinition.map Value.plain) }⟩
        (.mark .closeParen :: rest) := by
  induction vs generalizing op with
  | nil => simp
  | cons v vs ih =>
    obtain ⟨hv, hvs⟩ := List.forall_mem_cons.1 h
    obtain ⟨l, ls, hl, hc⟩ : ∃ l ls, vs.flatMap (fun v => Piece.lexemes v.pieces) ++
        .mark .closeParen :: rest = l :: ls ∧ ContinuesVariables l := by
      cases vs with
      | nil => exact ⟨_, _, rfl, .inr rfl⟩
      | cons w vs => exact ⟨_, _, rfl, .inl rfl⟩
    rw [List.flatMap_cons, List.append_assoc, hl, read_variable hv op hc, ← hl, ih hvs]
    simp [Operation.declare]

/-- Behind the keyword and the name of an operation, its variables and directives are read
up to its selection set. -/
theorem read_operation_tail {f : Focus} {op : Operation} {vs : List VariableDefinition}
    {dirs : List Directive} (hvs : ∀ v ∈ vs, v.WellSpelled)
    (hdirs : ∀ d ∈ dirs, d.WellSpelled false) (hop : op.variableDefinitions = [])
    (hf : ∀ m, f.next (.mark m) = afterOperationName op (.mark m)) :
    State.read ⟨ds, f⟩
        (Piece.lexemes (Piece.parenthesized (vs.map VariableDefinition.pieces)) ++
          (Piece.lexemes (Directive.listPieces dirs) ++ .mark .openBrace :: rest)) =
      State.read ⟨ds, .block (.operation { op with
        variableDefinitions := vs.map (VariableDefinition.map Value.plain)
        directives := op.directives ++ dirs.map (Directive.map Value.plain) })⟩ rest := by
  by_cases hne : vs = []
  · subst hne
    rw [List.map_nil, Piece.parenthesized_nil, Piece.lexemes_nil, List.nil_append]
    rw [read_directives f (.operation op) hdirs ((hf _).trans rfl) ((hf _).trans rfl) (by decide)]
    rw [read_to rfl, List.map_nil, ← hop]
  · rw [Piece.lexemes_parenthesized _ (by simpa using hne), List.flatMap_map, List.cons_append,
      List.append_assoc, read_to ((hf _).trans rfl), List.singleton_append, read_variables hvs, hop]
    have hclose : (Focus.variableDefinitions { op with
        variableDefinitions := [] ++ vs.map (VariableDefinition.map Value.plain) }).next
          (.mark .closeParen) = some (.to (.site (.operation { op with
            variableDefinitions := [] ++ vs.map (VariableDefinition.map Value.plain) }))) := by
      simp [Focus.next, nextVariable, hne]
    rw [read_to hclose, read_directives _ _ hdirs rfl rfl (by decide)]
    exact read_to rfl

/-- The root selection set of a definition is read up to the end of the definition. -/
theorem read_root {block : Block} {set : List Selection} {x : Definition}
    (h : ∀ s ∈ set, s.WellSpelled) (hf : FilledSet set)
    (hx : (block.addAll (set.map (Selection.map Value.plain id))).close = .complete x) :
    State.read ⟨ds, .block block⟩ (Piece.lexemes (Selection.listPieces set) ++
        .mark .closeBrace :: rest) =
      State.read ⟨ds ++ [x], .between⟩ rest := by
  have hset : ∀ s ∈ set, IsSelected ds s := fun s hs =>
    isSelected_of_wellSpelled (h s hs) (hf.filled s hs)
  rw [Selection.listPieces_eq_flatMap, Piece.lexemes_flatMap, read_selections hset]
  exact read_complete ((next_closeBrace block hf.ne_nil).trans (congrArg some hx))

/-- An operation is read. -/
theorem read_operation {op : Operation} (h : op.WellSpelled) (hf : FilledSet op.selections) :
    State.read ⟨ds, .between⟩ (Piece.lexemes op.pieces ++ rest) =
      State.read ⟨ds ++ [.operation (op.map Value.plain id)], .between⟩ rest := by
  obtain ⟨kind, name, vs, dirs, set⟩ := op
  simp only [Operation.pieces, Selection.setPieces, Piece.lexemes_append,
    Piece.lexemes_cons_ofMark, Piece.lexemes_nil, List.append_assoc, List.cons_append,
    List.nil_append]
  by_cases hs : Operation.isShorthand ⟨kind, name, vs, dirs, set⟩ = true
  · have hparts : ((kind = .query ∧ name = none) ∧ vs = []) ∧ dirs = [] := by
      simpa [Operation.isShorthand] using hs
    obtain ⟨⟨⟨rfl, rfl⟩, rfl⟩, rfl⟩ := hparts
    rw [if_pos hs, Piece.lexemes_nil, List.nil_append, read_to rfl]
    exact read_root h.selections hf rfl
  · have hkeyword : Focus.between.next (.name kind.keyword) =
        some (.to (.operationKeyword (bareOperation kind))) := by
      cases kind <;> rfl
    rw [if_neg hs]
    cases name with
    | none =>
      simp only [Operation.headPieces, Option.toList_none, List.map_nil, List.nil_append,
        Piece.lexemes_cons_ofName, Piece.lexemes_append, List.cons_append, List.append_assoc]
      rw [read_to hkeyword, read_operation_tail h.variableDefinitions h.directives rfl
        fun _ => rfl]
      exact read_root h.selections hf rfl
    | some name =>
      simp only [Operation.headPieces, Option.toList_some, List.map_cons, List.map_nil,
        List.nil_append, Piece.lexemes_cons_ofName, Piece.lexemes_append, List.cons_append,
        List.append_assoc]
      rw [read_to hkeyword, read_to rfl, read_operation_tail h.variableDefinitions h.directives
        rfl fun _ => rfl]
      exact read_root h.selections hf rfl

/-- A fragment is read. -/
theorem read_fragment {f : Fragment} (h : f.WellSpelled) (hf : FilledSet f.selections) :
    State.read ⟨ds, .between⟩ (Piece.lexemes f.pieces ++ rest) =
      State.read ⟨ds ++ [.fragment (f.map Value.plain id)], .between⟩ rest := by
  have hname : Focus.fragmentKeyword.next (.name f.name) = some (.to (.fragmentName f.name)) := by
    simp [Focus.next, h.name_ne]
  simp only [Fragment.pieces, Selection.setPieces, Piece.lexemes_append,
    Piece.lexemes_cons_ofName, Piece.lexemes_cons_ofMark, Piece.lexemes_nil, List.append_assoc,
    List.cons_append, List.nil_append]
  rw [read_to rfl, read_to hname, read_to rfl, read_to rfl,
    read_directives _ (.fragment ⟨f.name, f.typeCondition, [], []⟩) h.directives rfl rfl
      (by decide), read_to rfl]
  exact read_root h.selections hf rfl

/-- Definitions are read one after another. -/
theorem read_definitions {xs : List Definition} (h : ∀ x ∈ xs, x.WellSpelled)
    (hf : ∀ x ∈ xs, FilledSet x.selections) (before : List Definition) :
    State.read ⟨before, .between⟩ (Piece.lexemes (xs.flatMap Definition.pieces)) =
      some ⟨before ++ xs.map (Definition.map Value.plain id), .between⟩ := by
  induction xs generalizing before with
  | nil => simp [State.read]
  | cons x xs ih =>
    obtain ⟨hx, hxs⟩ := List.forall_mem_cons.1 h
    obtain ⟨hfx, hfxs⟩ := List.forall_mem_cons.1 hf
    have hfirst : ∀ rest, State.read ⟨before, .between⟩ (Piece.lexemes x.pieces ++ rest) =
        State.read ⟨before ++ [x.map Value.plain id], .between⟩ rest := by
      intro rest
      cases x with
      | operation op => exact read_operation hx hfx
      | fragment f => exact read_fragment hx hfx
    rw [List.flatMap_cons, Piece.lexemes_append, hfirst, ih hxs hfxs]
    simp

end Grammar

/-- The lexemes of a well-formed document denote the document, with plain strings. -/
theorem Document.WellFormed.ofTokens_eq_ok {d : Document} (h : d.WellFormed)
    {stream : TokenStream} (hs : stream.tokens.map Token.lexeme = d.lexemes) :
    Document.ofTokens stream = .ok d.plain := by
  have hread := Grammar.read_definitions h.wellSpelled h.filled []
  rw [Document.ofTokens, Grammar.State.run_eq_ok_iff, hs]
  refine ⟨_, hread, ?_⟩
  simp [Grammar.State.document?, h.ne_nil, Document.plain, Document.map]

end Safelist
