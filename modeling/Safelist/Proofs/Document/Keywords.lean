import Safelist.Proofs.Document.Holding
import Safelist.Proofs.Document.RoundTrip

/-!
# Reading and writing keep every lexeme

The reduced form of a document has the lexemes of the text that it was read from,
with block strings as plain ones and without the keyword in front of a bare
selection set. Which keywords these are is told from the lexemes alone, by counting
the brackets that are open.
-/

namespace Safelist

namespace Lexical

/-- How many brackets are open after a lexeme when so many are before it. -/
def Lexeme.nesting (n : Nat) : Lexeme → Nat
  | .mark .openParen => n + 1
  | .mark .openBracket => n + 1
  | .mark .openBrace => n + 1
  | .mark .closeParen => n - 1
  | .mark .closeBracket => n - 1
  | .mark .closeBrace => n - 1
  | _ => n

/-- Lexemes without the keyword of each query that consists of the keyword and a selection set.
A definition begins where nothing has been read yet and behind each brace that closes the last
open bracket. -/
def withoutBareKeywords (begins : Bool) (n : Nat) : List Lexeme → List Lexeme
  | [] => []
  | l :: rest =>
    let others := withoutBareKeywords (l = .mark .closeBrace && l.nesting n = 0) (l.nesting n) rest
    if begins && l = .name "query" && rest.head? = some (.mark .openBrace) then others
    else l :: others

/-- Lexemes hold all their brackets and keep every lexeme inside so many brackets. -/
def Enclosed (least : Nat) (ls : List Lexeme) : Prop :=
  ∀ n, least ≤ n → ∀ rest,
    withoutBareKeywords false n (ls ++ rest) = ls ++ withoutBareKeywords false n rest

variable {k : Nat} {ls more : List Lexeme} {l : Lexeme}

theorem enclosed_nil (k : Nat) : Enclosed k [] := fun _ _ _ => rfl

theorem Enclosed.append (h : Enclosed k ls) (hm : Enclosed k more) : Enclosed k (ls ++ more) := by
  intro n hn rest
  rw [List.append_assoc, h n hn, hm n hn, List.append_assoc]

theorem enclosed_flatMap {α : Type} {xs : List α} {f : α → List Lexeme}
    (h : ∀ x ∈ xs, Enclosed k (f x)) : Enclosed k (xs.flatMap f) := by
  induction xs with
  | nil => exact enclosed_nil k
  | cons x xs ih =>
    rw [List.forall_mem_cons] at h
    exact h.1.append (ih h.2)

/-- A lexeme that is no bracket may stand anywhere. -/
theorem Enclosed.cons (h : Enclosed k ls) (hl : ∀ n, l.nesting n = n)
    (hb : l ≠ .mark .closeBrace) : Enclosed k (l :: ls) := by
  intro n hn rest
  simp [withoutBareKeywords, hl, hb, h n hn]

theorem Enclosed.name (h : Enclosed k ls) (name : String) : Enclosed k (.name name :: ls) :=
  h.cons (fun _ => rfl) (by simp)

theorem Enclosed.mark (h : Enclosed k ls) (m : Mark)
    (hm : m ∈ [.bang, .dollar, .dots, .colon, .equals, .atSign]) : Enclosed k (.mark m :: ls) := by
  cases m <;> simp at hm <;> exact h.cons (fun _ => rfl) (by decide)

/-- Parentheses may stand anywhere. -/
theorem Enclosed.parens (h : Enclosed 1 ls) (k : Nat) :
    Enclosed k (.mark .openParen :: (ls ++ [.mark .closeParen])) := by
  intro n _ rest
  simp [withoutBareKeywords, Lexeme.nesting, h (n + 1) (Nat.le_add_left 1 n)]

/-- Square brackets may stand anywhere. -/
theorem Enclosed.brackets (h : Enclosed k ls) :
    Enclosed k (.mark .openBracket :: (ls ++ [.mark .closeBracket])) := by
  intro n hn rest
  simp [withoutBareKeywords, Lexeme.nesting, h (n + 1) (Nat.le_succ_of_le hn)]

/-- Inside of brackets, braces may stand too. -/
theorem Enclosed.braces (h : Enclosed 1 ls) :
    Enclosed 1 (.mark .openBrace :: (ls ++ [.mark .closeBrace])) := by
  intro n hn rest
  have hz : n ≠ 0 := Nat.ne_of_gt hn
  simp [withoutBareKeywords, Lexeme.nesting, h (n + 1) (Nat.le_add_left 1 n), hz]

end Lexical

open Lexical Piece

theorem TypeRef.enclosed (t : TypeRef) (k : Nat) : Enclosed k (lexemes t.pieces) := by
  induction t with
  | named name => exact (enclosed_nil k).name name
  | list item ih => simpa [pieces] using ih.brackets
  | nonNull inner ih =>
    simpa [pieces] using ih.append ((enclosed_nil k).mark .bang (by decide))

theorem Value.enclosed (v : Value) : Enclosed 1 (lexemes v.pieces) := by
  induction v with
  | boolean value => cases value <;> exact (enclosed_nil 1).name _
  | list items ih =>
    simpa [pieces, List.flatMap_map] using (enclosed_flatMap ih).brackets
  | object members ih =>
    have hm : ∀ m ∈ members, Enclosed 1 (.name m.1 :: .mark .colon :: lexemes m.2.pieces) :=
      fun m hm => ((ih m hm).mark .colon (by decide)).name _
    simpa [pieces, List.flatMap_map] using (enclosed_flatMap hm).braces
  | var name => exact ((enclosed_nil 1).name name).mark .dollar (by decide)
  | _ => exact (enclosed_nil 1).cons (fun _ => rfl) (by simp)

/-- What is put in parentheses, or left out with them, may stand anywhere. -/
theorem enclosed_parenthesized {α : Type} (xs : List α) {f : α → List Piece}
    (h : ∀ x, Enclosed 1 (lexemes (f x))) (k : Nat) :
    Enclosed k (lexemes (parenthesized (xs.map f))) := by
  cases xs with
  | nil => exact enclosed_nil k
  | cons x xs =>
    rw [lexemes_parenthesized _ (by simp), List.flatMap_map]
    exact (enclosed_flatMap fun x _ => h x).parens k

theorem Argument.enclosed (a : Argument) : Enclosed 1 (lexemes a.pieces) :=
  (a.value.enclosed.mark .colon (by decide)).name a.name

theorem Directive.enclosed (d : Directive) (k : Nat) : Enclosed k (lexemes d.pieces) :=
  ((enclosed_parenthesized d.arguments Argument.enclosed k).name d.name).mark .atSign (by decide)

theorem Directive.enclosed_listPieces (ds : List Directive) (k : Nat) :
    Enclosed k (lexemes (listPieces ds)) := by
  rw [listPieces, lexemes_flatMap]
  exact enclosed_flatMap fun d _ => d.enclosed k

theorem VariableDefinition.enclosed (v : VariableDefinition) : Enclosed 1 (lexemes v.pieces) := by
  obtain ⟨name, type, defaultValue, directives⟩ := v
  have ht := type.enclosed 1
  have hd := Directive.enclosed_listPieces directives 1
  cases defaultValue with
  | none =>
    have hv := ((ht.append hd).mark .colon (by decide)).name name
    simpa [pieces] using hv.mark .dollar (by decide)
  | some value =>
    have he := value.enclosed.mark .equals (by decide)
    have hv := ((ht.append (he.append hd)).mark .colon (by decide)).name name
    simpa [pieces] using hv.mark .dollar (by decide)

theorem Field.enclosed (f : Field) (k : Nat) : Enclosed k (lexemes f.pieces) := by
  obtain ⟨aliasName, name, arguments, directives⟩ := f
  have ha := enclosed_parenthesized arguments Argument.enclosed k
  have hf := (ha.append (Directive.enclosed_listPieces directives k)).name name
  cases aliasName with
  | none => simpa [pieces] using hf
  | some aliasName =>
    simpa [pieces] using (hf.mark .colon (by decide)).name aliasName

theorem InlineHead.enclosed (head : InlineHead) (k : Nat) : Enclosed k (lexemes head.pieces) := by
  obtain ⟨typeCondition, directives⟩ := head
  have hd := Directive.enclosed_listPieces directives k
  cases typeCondition with
  | none => simpa [pieces] using hd.mark .dots (by decide)
  | some type =>
    simpa [pieces] using ((hd.name type).name "on").mark .dots (by decide)

theorem Selection.enclosed (s : Selection) : Enclosed 1 (lexemes s.pieces) := by
  induction s with
  | leaf f => exact f.enclosed 1
  | nested f set ih =>
    simpa [pieces] using (f.enclosed 1).append (enclosed_flatMap ih).braces
  | spread s =>
    exact ((Directive.enclosed_listPieces s.directives 1).name s.name).mark .dots (by decide)
  | inline head set ih =>
    simpa [pieces] using (head.enclosed 1).append (enclosed_flatMap ih).braces

namespace Lexical

/-- The closing brace of a selection set outside of all brackets ends a definition. -/
theorem withoutBareKeywords_setPieces (begins : Bool) (set : List Selection)
    (rest : List Lexeme) :
    withoutBareKeywords begins 0 (lexemes (Selection.setPieces set) ++ rest) =
      lexemes (Selection.setPieces set) ++ withoutBareKeywords true 0 rest := by
  have hs : Enclosed 1 (set.flatMap fun s => lexemes s.pieces) :=
    enclosed_flatMap fun s _ => s.enclosed
  simp [Selection.setPieces, withoutBareKeywords, Lexeme.nesting, hs 1 (le_refl 1)]

end Lexical

/-- The keyword of an operation stands right before the selection set only when nothing else
does. -/
theorem Operation.exists_lexemes_headPieces (op : Operation) :
    ∃ tail, lexemes op.headPieces = .name op.kind.keyword :: tail ∧ Enclosed 0 tail ∧
      (tail = [] ∧ op.isShorthand = decide (op.kind = .query) ∨
        (∃ l more, tail = l :: more ∧ l ≠ .mark .openBrace) ∧ op.isShorthand = false) := by
  obtain ⟨kind, name, vs, ds, set⟩ := op
  have hv := enclosed_parenthesized vs VariableDefinition.enclosed 0
  have hd := Directive.enclosed_listPieces ds 0
  cases name with
  | some name =>
    exact ⟨_, by simp [headPieces], (hv.append hd).name name, .inr ⟨⟨_, _, rfl, by simp⟩, by
      simp [isShorthand]⟩⟩
  | none =>
    refine ⟨_, by simp [headPieces], hv.append hd, ?_⟩
    cases vs with
    | cons v vs =>
      rw [lexemes_parenthesized _ (by simp)]
      exact .inr ⟨⟨_, _, rfl, by simp⟩, by simp [isShorthand]⟩
    | nil =>
      cases ds with
      | cons d ds => exact .inr ⟨⟨_, _, rfl, by simp⟩, by simp [isShorthand]⟩
      | nil => exact .inl ⟨rfl, by simp [isShorthand]⟩

/-- The keyword of an operation is left out exactly when the reduced form does without it. -/
theorem Operation.HeadedBy.withoutBareKeywords_append {op : Operation} {head : List Lexeme}
    (h : op.HeadedBy head) (rest : List Lexeme) :
    withoutBareKeywords true 0 (head ++ (lexemes (Selection.setPieces op.selections) ++ rest)) =
      lexemes op.pieces ++ withoutBareKeywords true 0 rest := by
  obtain rfl | ⟨hs, rfl⟩ := h
  · obtain ⟨tail, htail, he, ⟨rfl, hs⟩ | ⟨⟨l, more, rfl, hl⟩, hs⟩⟩ :=
      op.exists_lexemes_headPieces
    · have hb : (lexemes (Selection.setPieces op.selections) ++ rest).head? =
          some (.mark .openBrace) := rfl
      cases hk : op.kind <;>
        simp [htail, withoutBareKeywords, Lexeme.nesting, hb, withoutBareKeywords_setPieces,
          pieces, hs, hk, OperationKind.keyword]
    · have htail' := he 0 (le_refl 0) (lexemes (Selection.setPieces op.selections) ++ rest)
      rw [withoutBareKeywords_setPieces] at htail'
      simp only [htail, pieces, hs, Bool.false_eq_true, if_false, lexemes_append, List.cons_append,
        List.append_assoc] at htail' ⊢
      rw [withoutBareKeywords]
      simp [Lexeme.nesting, hl, htail']
  · simp [pieces, hs, withoutBareKeywords_setPieces]

/-- A definition that is read keeps its lexemes up to a keyword that may be left out. -/
theorem Definition.ReadFrom.withoutBareKeywords_append {x : Definition} {ls : List Lexeme}
    (h : x.ReadFrom ls) (rest : List Lexeme) :
    withoutBareKeywords true 0 (ls ++ rest) =
      lexemes x.pieces ++ withoutBareKeywords true 0 rest := by
  cases x with
  | operation op =>
    obtain ⟨head, hh, rfl⟩ := h
    rw [List.append_assoc]
    exact hh.withoutBareKeywords_append rest
  | fragment f =>
    subst h
    have hd := Directive.enclosed_listPieces f.directives 0 0 (le_refl 0)
    simp [pieces, Fragment.pieces, withoutBareKeywords, Lexeme.nesting, hd,
      withoutBareKeywords_setPieces]

/-- The lexemes of a document's reduced form are those of the definitions that were read, without
the keywords that may be left out. -/
theorem withoutBareKeywords_flatten {xs : List Definition} {runs : List (List Lexeme)}
    (h : List.Forall₂ Definition.ReadFrom xs runs) :
    withoutBareKeywords true 0 runs.flatten = lexemes (xs.flatMap Definition.pieces) := by
  induction h with
  | nil => rfl
  | cons hx _ ih => rw [List.flatten_cons, hx.withoutBareKeywords_append, ih, List.flatMap_cons,
      lexemes_append]

/-- Reading a text and writing what it denotes loses no lexeme and makes none up: a block string
becomes a plain one, and the keyword of a query that has nothing else but a selection set is left
out. -/
theorem Document.lexemes_of_parse {source : String} {d : Document} (hd : parse source = .ok d) :
    ∃ read written, Lexer.tokenize source = .ok read ∧ Lexer.tokenize d.print = .ok written ∧
      written.tokens.map Token.lexeme =
        withoutBareKeywords true 0 ((read.tokens.map Token.lexeme).map Lexeme.plain) := by
  have hw := wellFormed_of_parse hd
  obtain ⟨written, hp, hl⟩ := exists_tokenize_print hw.wellSpelled
  unfold parse at hd
  cases hs : Lexer.tokenize source with
  | error e => simp [hs, bind, Except.bind] at hd
  | ok read =>
    rw [hs] at hd
    obtain ⟨runs, hr, hls⟩ := exists_readFrom_of_ofTokens hd
    exact ⟨read, written, rfl, hp, by rw [hl, hls, withoutBareKeywords_flatten hr]; rfl⟩

/-- A bare query, an operation and a directive named after the keyword, a field and the member of
an input object of that name, and a block string. -/
theorem Document.lexemes_of_parse_keywords :
    ∃ source, source = "query {query(a: {query: {b: 1}}) {c}} query query {d} " ++
        "query @query {e} mutation \x7bf(g: \"\"\"h\"\"\")\x7d query {i}" ∧
      ∃ d, parse source = .ok d ∧
        d.print = "{query(a:{query:{b:1}}){c}}query query{d}query@query{e}" ++
          "mutation\x7bf(g:\"h\")\x7d{i}" ∧
        ∃ read written, Lexer.tokenize source = .ok read ∧ Lexer.tokenize d.print = .ok written ∧
          written.tokens.map Token.lexeme =
            withoutBareKeywords true 0 ((read.tokens.map Token.lexeme).map Lexeme.plain) :=
  ⟨_, rfl, exists_of_map (by decide +kernel) fun _ hd _ => lexemes_of_parse hd⟩

end Safelist
