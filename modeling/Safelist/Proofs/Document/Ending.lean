import Safelist.Proofs.Document.Phrases
import Safelist.Proofs.Lexical.Consumption

/-!
# Reading always ends

Selections, definitions and whole documents are read by routines that end. So reading a text
ends, whatever the text is: each step of the lexer uses up characters, and the descent over
the tokens moves the cursor in every loop and before every routine that it enters again. Its
result is the document or the error that the grammar comes to.
-/

namespace Safelist

open Lexical

namespace Grammar

/-- The state to which a move leads. -/
def Move.from (ds : List Definition) : Move → State
  | .to f => ⟨ds, f⟩
  | .complete x => ⟨ds ++ [x], .between⟩

theorem State.next_of_move {s : State} {l : Lexeme} {move : Move}
    (h : s.focus.next l = some move) : s.next l = some (move.from s.definitions) := by
  rw [next, h]
  cases move <;> rfl

/-- Between definitions, nothing in particular is asked for. -/
theorem Focus.error_between {found : Option Lexeme} (h : found.bind unsupportedKeyword? = none)
    (p : Position) : Focus.between.error found p = .malformed p (.unexpected found) := by
  simp [error, h, problem, refusesVariable, expected]

theorem Focus.error_between_of_unsupported {l : Lexeme} {keyword : String}
    (h : unsupportedKeyword? l = some keyword) (p : Position) :
    Focus.between.error (some l) p = .unsupported p keyword := by
  simp [error, h]

theorem Block.add_addAll (block : Block) (set : List Selection) (s : Selection) :
    (block.addAll set).add s = block.addAll (set ++ [s]) := by
  cases block <;> simp [addAll, add]

end Grammar

namespace Descent

open Grammar

variable {ts : TokenStream} {ds : List Definition} {i : Nat} {calls : List Call}

theorem exists_name_of_isUse {found : Option Lexeme} (h : isUse found = true) :
    ∃ name, found = some (.name name) ∧ name ≠ "on" := by
  rcases found with _ | l
  · cases h
  · cases l with
    | name name => exact ⟨name, rfl, by simpa [isUse] using h⟩
    | _ => cases h

theorem exists_name_of_isName {found : Option Lexeme} (h : isName found = true) :
    ∃ name, found = some (.name name) := by
  rcases found with _ | l
  · cases h
  · cases l with
    | name name => exact ⟨name, rfl⟩
    | _ => cases h

section Selections

variable {b : Block} {c : Call} {first : Nat}

/-- A selection set is read to its end, in any block that it opens. -/
def SetEnds (ts : TokenStream) (ds : List Definition) (i : Nat) : Prop :=
  ∀ (b : Block) (f : Focus) (calls : List Call), Admitted calls .selectionSet i →
    b.selections = [] → f.next (.mark .openBrace) = some (.to (.block b)) →
    (ts.lexeme? i ≠ some (.mark .openBrace) → f.Misses (.mark .openBrace) (ts.lexeme? i)) →
    Stands ts i ⟨ds, f⟩ →
    Ends ts ts.selectionSet ⟨i, calls⟩
      (Kept calls fun set j => i < j ∧ Stands ts j ((b.addAll set).close.from ds))

/-- A selection set is read to its end behind directives that one must follow. -/
theorem SetEnds.behind_directives (h : SetEnds ts ds i) {site : Site} (hb : site.block? = some b)
    (hempty : b.selections = []) (ha : Admitted calls .selectionSet i)
    (hat : ts.lexeme? i ≠ some (.mark .atSign)) (hs : Stands ts i ⟨ds, .site site⟩) :
    Ends ts ts.selectionSet ⟨i, calls⟩
      (Kept calls fun set j => i < j ∧ Stands ts j ((b.addAll set).close.from ds)) :=
  h b _ _ ha hempty (next_of_block hb) (misses_of_block hb hat) hs

/-- The grammar stands in a block where a selection has to begin: no brace closes the block there
unless it is still empty, and then one may not. -/
structure BeforeSelection (ts : TokenStream) (ds : List Definition) (b : Block) (i : Nat) :
    Prop where
  /-- It stands in the block. -/
  stands : Stands ts i ⟨ds, .block b⟩
  /-- A block with selections is not closed there. -/
  isOpen : ts.lexeme? i = some (.mark .closeBrace) → b.selections = []

theorem ends_fieldName (h : BeforeSelection ts ds b i) (hdots : ts.lexeme? i ≠ some (.mark .dots)) :
    Ends ts ts.fieldName ⟨i, calls⟩ (Kept calls fun head j =>
      i < j ∧ (head.arguments = [] ∧ head.directives = []) ∧
        Stands ts j ⟨ds, .fieldName b head⟩) := by
  refine Ends.name_bind h.stands (g := .fieldStart b) (fun _ _ => rfl)
    (fun hname => misses_field b hname hdots h.isOpen) ?_
  intro first _ hfirst
  refine Ends.skip_bind (fun hl => ?_) fun hl => ?_
  · have hcolon := hfirst.to hl (g := .aliasColon b first) rfl
    refine Ends.onlyName_bind hcolon rfl ?_
    intro name hname
    have hlt : i < i + 1 + 1 + 1 := by omega
    exact Ends.pure ⟨rfl, hlt, ⟨rfl, rfl⟩, hname⟩
  · have hplain := hfirst.alike (alike_fieldStart b first hl)
    exact Ends.pure ⟨rfl, Nat.lt_succ_self i, ⟨rfl, rfl⟩, hplain⟩

/-- A field is read to its end, if selection sets behind its name are. -/
theorem ends_field (hset : ∀ j, i < j → SetEnds ts ds j) (ha : Admitted calls .field i)
    (h : BeforeSelection ts ds b i) (hdots : ts.lexeme? i ≠ some (.mark .dots)) :
    Ends ts ts.field ⟨i, calls⟩
      (Kept calls fun s j => i < j ∧ Stands ts j ⟨ds, .block (b.add s)⟩) := by
  rw [TokenStream.field]
  refine Ends.within ha (Ends.kept_bind (ends_fieldName h hdots) ?_)
  rintro ⟨aliasName, name, _, _⟩ j ⟨hij, ⟨rfl, rfl⟩, hname⟩
  have hadmits : ∀ k, i < k → ∀ routine,
      Admitted (⟨.field, i, []⟩ :: calls) routine k := fun k hk => .of_lt hk
  refine Ends.kept_bind (ends_arguments (.field b ⟨aliasName, name, [], []⟩)
    (hadmits j hij _) rfl rfl (alike_fieldName b _) hname) ?_
  rintro as k ⟨hjk, hargs⟩
  have hik : i < k := by omega
  refine Ends.kept_bind (ends_directives (.field b ⟨aliasName, name, as, []⟩)
    (hadmits k hik _) hargs) ?_
  rintro dirs l ⟨hkl, hat, hdirs⟩
  have hil : i < l := by omega
  refine Ends.peek_bind ?_
  by_cases hl : ts.lexeme? l = some (.mark .openBrace)
  · rw [if_pos hl]
    refine Ends.kept_bind (hset l hil (.nested b ⟨aliasName, name, as, dirs⟩ []) _ _
      (hadmits l hil _) rfl rfl (fun hne => absurd hl hne) hdirs) ?_
    rintro set n ⟨hln, hclosed⟩
    exact Ends.pure ⟨rfl, hil.trans hln, hclosed⟩
  · rw [if_neg hl]
    exact Ends.pure ⟨rfl, hil, hdirs.alike (alike_field b _ hat hl)⟩

theorem ends_typeCondition (huse : isUse (ts.lexeme? i) = false) (hs : Stands ts i ⟨ds, .dots b⟩) :
    Ends ts ts.typeCondition ⟨i, calls⟩ (Kept calls fun type j =>
      i ≤ j ∧ Stands ts j ⟨ds, .site (.inline b ⟨type, []⟩)⟩) := by
  refine Ends.peek_bind ?_
  by_cases hon : ts.lexeme? i = some (.name "on")
  · rw [if_pos hon]
    refine Ends.advance_bind hon ?_
    refine Ends.onlyName_bind (hs.to hon (g := .inlineType b) rfl) rfl ?_
    intro type htype
    have hle : i ≤ i + 1 + 1 := by omega
    exact Ends.pure ⟨rfl, hle, htype⟩
  · rw [if_neg hon]
    have hname : ∀ name, ts.lexeme? i ≠ some (.name name) := by
      intro name hl
      have hword : name = "on" := by simpa [isUse, hl] using huse
      exact hon (hword ▸ hl)
    exact Ends.pure ⟨rfl, le_rfl, hs.alike (alike_dots b hname)⟩

/-- A selection is read to its end, if selection sets inside it are. -/
theorem ends_selection (hset : ∀ j, i < j → SetEnds ts ds j) (ha : Admitted calls .selection i)
    (h : BeforeSelection ts ds b i) :
    Ends ts ts.selection ⟨i, calls⟩
      (Kept calls fun s j => i < j ∧ Stands ts j ⟨ds, .block (b.add s)⟩) := by
  have hadmits : ∀ k, i < k → ∀ routine,
      Admitted (⟨.selection, i, []⟩ :: calls) routine k := fun k hk => .of_lt hk
  rw [TokenStream.selection]
  refine Ends.within ha (Ends.skip_bind (fun hl => ?_) fun hl => ?_)
  · have hdots := h.stands.to hl (g := .dots b) rfl
    refine Ends.peek_bind ?_
    by_cases huse : isUse (ts.lexeme? (i + 1)) = true
    · rw [if_pos huse]
      obtain ⟨use, huse, hon⟩ := exists_name_of_isUse huse
      refine Ends.name_bind hdots (g := fun name => .site (.spread b ⟨name, []⟩))
        (fun name hl => if_neg ?_) (fun hnone => absurd huse (hnone use)) ?_
      · obtain rfl : name = use := by simpa [hl] using huse
        exact hon
      · intro name _ hspread
        refine Ends.kept_bind (ends_directives _ (hadmits _ (by omega) _) hspread) ?_
        rintro dirs k ⟨hk, hat, hdirs⟩
        have hik : i < k := by omega
        exact Ends.pure ⟨rfl, hik, hdirs.alike (alike_spread b _ hat)⟩
    · rw [if_neg huse]
      refine Ends.kept_bind (ends_typeCondition (by simpa using huse) hdots) ?_
      rintro type j ⟨hij, htype⟩
      have hij : i < j := by omega
      refine Ends.kept_bind (ends_directives _ (hadmits j hij _) htype) ?_
      rintro dirs k ⟨hjk, hat, hdirs⟩
      have hik : i < k := by omega
      refine Ends.kept_bind ((hset k hik).behind_directives (b := .inline b ⟨type, dirs⟩ []) rfl
        rfl (hadmits k hik _) hat hdirs) ?_
      rintro set l ⟨hkl, hclosed⟩
      exact Ends.pure ⟨rfl, hik.trans hkl, hclosed⟩
  · have hrank : Routine.field.rank < Routine.selection.rank := by decide
    exact Ends.kept_around (ends_field hset (.of_rank le_rfl hrank) h hl) fun _ _ hp => hp

/-- The selections of a set are read to its end, if selection sets inside them are. -/
theorem ends_moreSelections (hset : ∀ j, first < j → SetEnds ts ds j) {set : List Selection}
    (hi : first ≤ i) (hc : c.AtTurn .selectionSet i)
    (h : BeforeSelection ts ds (b.addAll set) i) :
    Ends ts (ts.moreSelections set) ⟨i, c :: calls⟩ (Around calls fun all j =>
      i < j ∧ Stands ts j ((b.addAll all).close.from ds)) := by
  induction i using forward_induction ts.tokens.length generalizing c set with
  | h i ih =>
    rw [TokenStream.moreSelections]
    refine Ends.turn_bind hc (Ends.kept_bind (ends_selection
      (fun j hj => hset j (Nat.lt_of_le_of_lt hi hj)) (hc.admits_of_rank (by decide)) h) ?_)
    rintro s j ⟨hij, hbehind⟩
    rw [b.add_addAll] at hbehind
    have hne : (b.addAll (set ++ [s])).selections ≠ [] := by simp [Block.selections_addAll]
    refine Ends.skip_bind (fun hl => ?_) fun hl => ?_
    · refine Ends.pure ⟨rfl, hij.trans (Nat.lt_succ_self j), ?_⟩
      refine hbehind.next hl (State.next_of_move ?_)
      exact if_neg (by simpa using hne)
    · exact Ends.of_fits fun hfit => Ends.around_lt hij (ih j hij hfit.cursor_le
        (hi.trans hij.le) (hc.turned hij) ⟨hbehind, fun hclose => absurd hclose hl⟩)

/-- A selection set is read to its end. -/
theorem ends_selectionSet (i : Nat) : SetEnds ts ds i := by
  induction i using forward_induction ts.tokens.length with
  | h i ih =>
    intro b f calls ha hempty hopen hmisses hs
    -- a set inside this one begins behind its brace and the name or the dots that it belongs to
    have hinner : ∀ j, i + 1 < j → SetEnds ts ds j := by
      intro j hj b f calls ha hempty hopen hmisses hs
      exact Ends.of_fits fun hfit =>
        ih j (Nat.lt_of_succ_lt hj) hfit.cursor_le b f calls ha hempty hopen hmisses hs
    rw [TokenStream.selectionSet]
    refine Ends.within ha (Ends.expect_bind hs hopen hmisses fun hblock => ?_)
    rw [← b.addAll_nil] at hblock
    refine Ends.around_mono (ends_moreSelections hinner le_rfl (.first (Nat.le_succ i))
      ⟨hblock, fun _ => by rw [b.addAll_nil, hempty]⟩) ?_
    exact fun _ j hj => ⟨Nat.lt_of_succ_lt hj.1, hj.2⟩

end Selections

section Definitions

theorem ends_operationName {op : Operation} (hop : op.name = none)
    (hs : Stands ts i ⟨ds, .operationKeyword op⟩) :
    Ends ts ts.operationName ⟨i, calls⟩ (Kept calls fun name j =>
      i ≤ j ∧ Stands ts j ⟨ds, .operationName { op with name }⟩) := by
  refine Ends.peek_bind ?_
  by_cases hname : isName (ts.lexeme? i) = true
  · rw [if_pos hname]
    obtain ⟨first, hfirst⟩ := exists_name_of_isName hname
    refine Ends.name_bind hs (g := fun name => .operationName { op with name := some name })
      (fun _ _ => rfl) (fun hnone => absurd hfirst (hnone first)) ?_
    exact fun name _ hnamed => Ends.pure ⟨rfl, Nat.le_succ i, hnamed⟩
  · rw [if_neg hname]
    have hnone : ∀ name, ts.lexeme? i ≠ some (.name name) := by
      intro name hl
      exact hname (by rw [hl]; rfl)
    have hbehind := hs.alike (alike_operationKeyword op hnone)
    have hsame : { op with name := none } = op := by rw [← hop]
    rw [← hsame] at hbehind
    exact Ends.pure ⟨rfl, le_rfl, hbehind⟩

/-- An operation begins with a brace or with the keyword of its kind. -/
def BeginsOperation (found : Option Lexeme) : Prop :=
  found = some (.mark .openBrace) ∨
    ∃ word, found = some (.name word) ∧ (OperationKind.ofKeyword? word).isSome

/-- An operation is read to its end. -/
theorem ends_operation (hbegins : BeginsOperation (ts.lexeme? i))
    (ha : Admitted calls .operation i) (hs : Stands ts i ⟨ds, .between⟩) :
    Ends ts ts.operation ⟨i, calls⟩ (Kept calls fun op j =>
      i < j ∧ Stands ts j ⟨ds ++ [.operation op], .between⟩) := by
  refine Ends.within ha (Ends.peek_bind ?_)
  by_cases hbrace : ts.lexeme? i = some (.mark .openBrace)
  · rw [if_pos hbrace]
    refine Ends.kept_bind (ends_selectionSet i (.operation (bareOperation .query)) .between _
      (.of_rank le_rfl (show Routine.selectionSet.rank < Routine.operation.rank by decide)) rfl rfl
      (fun hne => absurd hbrace hne) hs) ?_
    rintro set j ⟨hij, hclosed⟩
    exact Ends.pure ⟨rfl, hij, hclosed⟩
  · rw [if_neg hbrace]
    obtain ⟨word, hword, hkind⟩ := hbegins.resolve_left hbrace
    obtain ⟨kind, hkind⟩ := Option.isSome_iff_exists.1 hkind
    have hadmits : ∀ k, i < k → ∀ routine,
        Admitted (⟨.operation, i, []⟩ :: calls) routine k := fun k hk => .of_lt hk
    refine Ends.name_bind hs (g := fun _ => .operationKeyword (bareOperation kind)) ?_
      (fun hnone => absurd hword (hnone word)) ?_
    · intro name hl
      obtain rfl : name = word := by simpa [hl] using hword
      simp [Focus.next, hkind]
    · intro keyword hl hkeyword
      obtain rfl : keyword = word := by simpa [hl] using hword
      rw [hkind]
      refine Ends.kept_bind (ends_operationName rfl hkeyword) ?_
      rintro name j ⟨hij, hname⟩
      refine Ends.kept_bind (ends_variableDefinitions (hadmits j hij _) rfl hname) ?_
      rintro vs k ⟨hjk, hvariables⟩
      refine Ends.kept_bind (ends_directives _ (hadmits k (by omega) _) hvariables) ?_
      rintro dirs l ⟨hkl, hat, hdirs⟩
      have hil : i < l := by omega
      refine Ends.kept_bind ((ends_selectionSet l).behind_directives
        (b := .operation ⟨kind, name, vs, dirs, []⟩) rfl rfl (hadmits l hil _) hat hdirs) ?_
      rintro set n ⟨hln, hclosed⟩
      exact Ends.pure ⟨rfl, hil.trans hln, hclosed⟩

/-- A fragment is read to its end. -/
theorem ends_fragment (hbegins : ts.lexeme? i = some (.name "fragment"))
    (ha : Admitted calls .fragment i) (hs : Stands ts i ⟨ds, .between⟩) :
    Ends ts ts.fragment ⟨i, calls⟩ (Kept calls fun f j =>
      i < j ∧ Stands ts j ⟨ds ++ [.fragment f], .between⟩) := by
  have hadmits : ∀ k, i < k → ∀ routine,
      Admitted (⟨.fragment, i, []⟩ :: calls) routine k := fun k hk => .of_lt hk
  refine Ends.within ha (Ends.keyword_bind hs (g := .fragmentKeyword) rfl
    (fun hne => absurd hbegins hne) fun hkeyword => Ends.peek_bind ?_)
  by_cases hon : ts.lexeme? (i + 1) = some (.name "on")
  · rw [if_pos hon]
    refine Ends.unexpected ?_
    rw [hkeyword.error (by simp [hon, Focus.next]) fun _ => rfl, hon]
    rfl
  · rw [if_neg hon]
    have hnext : ∀ name, ts.lexeme? (i + 1) = some (.name name) →
        Focus.fragmentKeyword.next (.name name) = some (.to (.fragmentName name)) := by
      intro name hl
      exact if_neg fun (h : name = "on") => hon (h ▸ hl)
    refine Ends.name_bind hkeyword hnext misses_fragmentKeyword ?_
    intro name _ hname
    refine Ends.keyword_bind hname (g := .fragmentType name) rfl (misses_fragmentName name) ?_
    intro htype
    refine Ends.onlyName_bind htype rfl ?_
    intro type hsite
    refine Ends.kept_bind (ends_directives _ (hadmits _ (by omega) _) hsite) ?_
    rintro dirs j ⟨hj, hat, hdirs⟩
    have hij : i < j := by omega
    refine Ends.kept_bind ((ends_selectionSet j).behind_directives
      (b := .fragment ⟨name, type, dirs, []⟩) rfl rfl (hadmits j hij _) hat hdirs) ?_
    rintro set k ⟨hjk, hclosed⟩
    exact Ends.pure ⟨rfl, hij.trans hjk, hclosed⟩

/-- The grammar stands where a definition has to begin: the text does not end there, unless no
definition has been read, and then it may not. -/
structure BeforeDefinition (ts : TokenStream) (ds : List Definition) (i : Nat) : Prop where
  /-- The grammar stands between definitions. -/
  stands : Stands ts i ⟨ds, .between⟩
  /-- Behind a definition the text does not end there. -/
  isOpen : ts.lexeme? i = none → ds = []

theorem BeforeDefinition.error (h : BeforeDefinition ts ds i)
    (hn : ∀ l, ts.lexeme? i = some l → Focus.between.next l = none) :
    Document.ofTokens ts = .error (Focus.between.error (ts.lexeme? i) (ts.positionAt i)) := by
  refine h.stands.error hn fun hl => ?_
  simp [State.document?, h.isOpen hl]

/-- What begins no definition is unexpected, but for what begins an unsupported one. -/
theorem BeforeDefinition.unexpected {R : Definition → Moment → Prop}
    (h : BeforeDefinition ts ds i)
    (hn : ∀ l, ts.lexeme? i = some l → Focus.between.next l = none ∧ unsupportedKeyword? l = none) :
    Ends ts ts.unexpected ⟨i, calls⟩ R := by
  refine Ends.unexpected ?_
  rw [h.error fun l hl => (hn l hl).1]
  refine congrArg Except.error (Focus.error_between ?_ _)
  cases hl : ts.lexeme? i with
  | none => rfl
  | some l => exact (hn l hl).2

theorem BeforeDefinition.unsupported {l : Lexeme} {keyword : String}
    (h : BeforeDefinition ts ds i) (hl : ts.lexeme? i = some l) (hn : Focus.between.next l = none)
    (hk : unsupportedKeyword? l = some keyword) :
    Document.ofTokens ts = .error (.unsupported (ts.positionAt i) keyword) := by
  rw [h.error fun l' hl' => by rwa [Option.some.inj (hl'.symm.trans hl)], hl]
  exact congrArg Except.error (Focus.error_between_of_unsupported hk _)

theorem ends_wordDefinition {c : Call} {word : String} (hc : c.routine = .definition)
    (hentry : c.entry = i) (hl : ts.lexeme? i = some (.name word)) (h : BeforeDefinition ts ds i) :
    Ends ts (ts.wordDefinition (ts.positionAt i) word) ⟨i, c :: calls⟩
      (Around calls fun x j => i < j ∧ Stands ts j ⟨ds ++ [x], .between⟩) := by
  rw [TokenStream.wordDefinition]
  by_cases hkind : (OperationKind.ofKeyword? word).isSome = true
  · rw [if_pos hkind]
    refine Ends.kept_bind (ends_operation (.inr ⟨word, hl, hkind⟩)
      (.of_rank hentry.le (by rw [hc]; decide)) h.stands) ?_
    exact fun op j hbehind => Ends.pure ⟨rfl, hbehind⟩
  · rw [if_neg hkind]
    by_cases hf : word = "fragment"
    · rw [if_pos hf]
      refine Ends.kept_bind (ends_fragment (hf ▸ hl)
        (.of_rank hentry.le (by rw [hc]; decide)) h.stands) ?_
      exact fun f j hbehind => Ends.pure ⟨rfl, hbehind⟩
    · have hn : Focus.between.next (.name word) = none := by
        simp only [Bool.not_eq_true, Option.isSome_eq_false_iff, Option.isNone_iff_eq_none] at hkind
        simp [Focus.next, hkind, hf]
      rw [if_neg hf]
      by_cases ht : word ∈ typeSystemKeywords
      · rw [if_pos ht]
        exact Ends.throw (h.unsupported hl hn (if_pos ht))
      · rw [if_neg ht]
        refine h.unexpected fun l hl' => ?_
        obtain rfl := Option.some.inj (hl.symm.trans hl')
        exact ⟨hn, if_neg ht⟩

/-- A definition is read to its end. -/
theorem ends_definition (ha : Admitted calls .definition i) (h : BeforeDefinition ts ds i) :
    Ends ts ts.definition ⟨i, calls⟩ (Kept calls fun x j =>
      i < j ∧ Stands ts j ⟨ds ++ [x], .between⟩) := by
  refine Ends.within ha (Ends.position_bind (Ends.peek_bind ?_))
  cases hl : ts.lexeme? i with
  | none => exact h.unexpected (by simp [hl])
  | some l =>
    have hnothing : Focus.between.next l = none ∧ unsupportedKeyword? l = none →
        Ends ts ts.unexpected ⟨i, ⟨.definition, i, []⟩ :: calls⟩
          (Around calls fun x j => i < j ∧ Stands ts j ⟨ds ++ [x], .between⟩) := by
      intro hn
      refine h.unexpected fun l' hl' => ?_
      rwa [← Option.some.inj (hl.symm.trans hl')]
    cases l with
    | int text => exact hnothing ⟨rfl, rfl⟩
    | float text => exact hnothing ⟨rfl, rfl⟩
    | string value => exact Ends.throw (h.unsupported hl rfl rfl)
    | block value => exact Ends.throw (h.unsupported hl rfl rfl)
    | name word => exact ends_wordDefinition rfl rfl hl h
    | mark m =>
      cases m with
      | openBrace =>
        have hrank : Routine.operation.rank < Routine.definition.rank := by decide
        refine Ends.kept_bind (ends_operation (.inl hl) (.of_rank le_rfl hrank) h.stands) ?_
        exact fun op j hbehind => Ends.pure ⟨rfl, hbehind⟩
      | _ => exact hnothing ⟨rfl, rfl⟩

/-- The definitions of a document are read to its end. -/
theorem ends_moreDefinitions {c : Call} (hc : c.AtTurn .document i)
    (h : BeforeDefinition ts ds i) :
    Ends ts (ts.moreDefinitions ds) ⟨i, c :: calls⟩
      (Around calls fun all _ => Document.ofTokens ts = .ok ⟨all⟩) := by
  induction i using forward_induction ts.tokens.length generalizing c ds with
  | h i ih =>
    rw [TokenStream.moreDefinitions]
    refine Ends.turn_bind hc (Ends.kept_bind
      (ends_definition (hc.admits_of_rank (by decide)) h) ?_)
    rintro x j ⟨hij, hbehind⟩
    refine Ends.peek_bind ?_
    by_cases hend : ts.lexeme? j = none
    · rw [if_pos hend]
      exact Ends.pure ⟨rfl, hbehind.ok hend (by simp [State.document?])⟩
    · rw [if_neg hend]
      exact Ends.of_fits fun hfit =>
        ih j hij hfit.cursor_le (hc.turned hij) ⟨hbehind, fun hl => absurd hl hend⟩

/-- A document is read to its end, or up to the first error. -/
theorem ends_document (ts : TokenStream) :
    Ends ts ts.document ⟨0, []⟩ (Kept [] fun d _ => Document.ofTokens ts = .ok d) := by
  refine Ends.within nofun (Ends.bind
    (ends_moreDefinitions (.first le_rfl) ⟨Stands.initial ts, fun _ => rfl⟩) ?_)
  exact fun all n hn => Ends.pure hn

end Definitions

/-- The descent comes to what the grammar comes to, by a run that is paced. -/
theorem exists_run (ts : TokenStream) : ∃ log,
    ts.document.run.run [] = some (Document.ofTokens ts, log) ∧ IsPaced ts log := by
  have hstart : LogFits ts [] := by
    intro earlier hearlier
    obtain rfl := List.prefix_nil.1 hearlier
    exact ⟨Nat.zero_le _, List.Pairwise.nil, nofun⟩
  obtain ⟨answer, log, hrun, hfits, hanswer⟩ := ends_document ts [] hstart rfl
  have hsame : Document.ofTokens ts = answer := by
    cases answer with
    | ok d => exact hanswer.2
    | error e => exact hanswer
  exact ⟨log, hsame ▸ hrun, hfits.isPaced⟩

end Descent

/-- Reading ends and stays in bounds. Every step that reads a token uses up characters of its
text, and taking steps comes to an end with the tokens of a source. Over any tokens the descent
ends with what the grammar comes to, a document or an error; its cursor stays within the tokens,
has moved between the turns of each loop and whenever a routine is entered again below itself,
and is advanced fewer times than there are tokens with the end among them. -/
theorem Document.reading_ends :
    (∀ (p : Position) (cs : List Char), Lexer.StaysIn p cs (Lexer.step p cs)) ∧
    (∀ source : String,
      (TokenStream.mk [] .start).extend source.toList = some (Lexer.tokenize source)) ∧
    ∀ ts : TokenStream, ∃ log,
      ts.document.run.run [] = some (Document.ofTokens ts, log) ∧ Descent.IsPaced ts log :=
  ⟨Lexer.step_staysIn, TokenStream.extend_eq_tokenize, Descent.exists_run⟩

end Safelist
