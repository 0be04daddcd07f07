import Safelist.Proofs.Document.Equality
import Safelist.Proofs.Document.Recognition
import Safelist.Proofs.Lexical.Places

/-!
# What has been read can be completed

From every place of the grammar some lexemes lead to the end of the definition
that is open: a value fills the slot before it, marks close what is open around
it, and the closing brace of the root set is the last of them. So the tokens
before an error are the beginning of some document, and the error lies at the
first token that no document has in its place.
-/

namespace Safelist

open Lexical

namespace Grammar

/-- Some lexemes lead from a place to the end of the definition that is open. -/
def Completable (f : Focus) : Prop :=
  ∀ ds, ∃ ls x, State.read ⟨ds, f⟩ ls = some ⟨ds ++ [x], .between⟩

/-- A definition can be completed where one lexeme completes it. -/
theorem completable_of_complete {f : Focus} {l : Lexeme} {x : Definition}
    (h : f.next l = some (.complete x)) : Completable f :=
  fun _ => ⟨[l], x, read_complete h⟩

/-- A definition can be completed where one lexeme leads to a place at which it can. -/
theorem completable_of_to {f g : Focus} (l : Lexeme) (h : f.next l = some (.to g))
    (hg : Completable g) : Completable f := by
  intro ds
  obtain ⟨ls, x, hls⟩ := hg ds
  exact ⟨l :: ls, x, (read_to h).trans hls⟩

/-- Where a closing brace does what it does behind a selection, it and those behind it complete
the definition. -/
theorem completable_of_closeBrace (block : Block) : ∀ (s : Selection) {f : Focus},
    f.next (.mark .closeBrace) = (block.add s).next (.mark .closeBrace) → Completable f := by
  have hne : ∀ (block : Block) (s : Selection),
      (block.add s).next (.mark .closeBrace) = some (block.add s).close := by
    intro block s
    cases block <;> simp [Block.next, Block.add, Block.selections]
  induction block with
  | operation op => exact fun s f h => completable_of_complete (h.trans (hne _ s))
  | fragment f => exact fun s f h => completable_of_complete (h.trans (hne _ s))
  | nested outer field set ih =>
    exact fun s f h => completable_of_to _ (h.trans (hne _ s)) (ih (.nested field (set ++ [s])) rfl)
  | inline outer head set ih =>
    exact fun s f h => completable_of_to _ (h.trans (hne _ s)) (ih (.inline head (set ++ [s])) rfl)

/-- A selection set can be filled and closed. -/
theorem completable_block (block : Block) : Completable (.block block) :=
  completable_of_to (.name "a") rfl (completable_of_closeBrace block (.leaf (.plain "a")) rfl)

/-- The lexeme that leads on from a site when no more directives follow. -/
def Site.exit : Site → Lexeme
  | .operation _ => .mark .openBrace
  | .variableOf _ _ => .mark .closeParen
  | .fragment _ => .mark .openBrace
  | .field _ _ => .mark .closeBrace
  | .spread _ _ => .mark .closeBrace
  | .inline _ _ => .mark .openBrace

/-- Where the lexeme that leads on from a site does what it does there, the definition can be
completed. -/
theorem completable_of_exit (site : Site) {f : Focus} (h : f.next site.exit = site.next site.exit) :
    Completable f := by
  have hop : ∀ (op : Operation) {f : Focus},
      f.next (.mark .openBrace) = (Site.operation op).next (.mark .openBrace) → Completable f :=
    fun op f h => completable_of_to _ h (completable_block (.operation op))
  cases site with
  | operation op => exact hop op h
  | variableOf op v =>
    have hv : (Site.variableOf op v).next (.mark .closeParen) =
        some (.to (.site (.operation (op.declare v)))) := by
      simp [Site.next, nextVariable, Operation.declare]
    exact completable_of_to _ (h.trans hv) (hop (op.declare v) rfl)
  | fragment x => exact completable_of_to _ h (completable_block (.fragment x))
  | field block x => exact completable_of_closeBrace block (.leaf x) h
  | spread block s => exact completable_of_closeBrace block (.spread s) h
  | inline block head => exact completable_of_to _ h (completable_block (.inline block head []))

/-- Behind an argument, the parenthesis can be closed. -/
theorem completable_arguments_attach (holder : Holder) (a : Argument) :
    Completable (.arguments (holder.attach a)) := by
  have hclose : (Focus.arguments (holder.attach a)).next (.mark .closeParen) =
      some (.to (.site (holder.attach a).close)) := by
    cases holder <;> simp [Focus.next, Holder.attach, Holder.arguments]
  exact completable_of_to _ hclose (completable_of_exit _ rfl)

/-- Behind a value, whatever is open around it can be closed. -/
theorem completable_fill (slot : Slot) (v : Value) : Completable (slot.fill v) := by
  induction slot generalizing v with
  | argument holder name => exact completable_arguments_attach holder ⟨name, v⟩
  | defaultOf op name type => exact completable_of_exit (.variableOf op _) rfl
  | item outer items ih => exact completable_of_to (.mark .closeBracket) rfl (ih _)
  | member outer members name ih => exact completable_of_to (.mark .closeBrace) rfl (ih _)

/-- A number stands wherever a value is asked for. -/
theorem completable_value (slot : Slot) : Completable (.value slot) :=
  completable_of_to (.int "0") rfl (completable_fill slot _)

theorem completable_argumentName (holder : Holder) (name : String) :
    Completable (.argumentName holder name) :=
  completable_of_to (.mark .colon) rfl (completable_value _)

/-- Behind a type, all brackets around it can be closed. -/
theorem completable_typeEnd (op : Operation) (name : String) (depth : Nat) (type : TypeRef)
    (marked : Bool) : Completable (.typeEnd op name depth type marked) := by
  induction depth generalizing type marked with
  | zero =>
    refine completable_of_exit (.variableOf op ⟨name, type, none, []⟩) ?_
    cases marked <;> rfl
  | succ depth ih => exact completable_of_to _ (next_closeBracket ..) (ih _ _)

theorem completable_variableName (op : Operation) (name : String) :
    Completable (.variableName op name) :=
  completable_of_to (.mark .colon) rfl
    (completable_of_to (.name "a") rfl (completable_typeEnd op name 0 _ _))

theorem completable_variableSign (op : Operation) : Completable (.variableSign op) :=
  completable_of_to (.name "a") rfl (completable_variableName op "a")

theorem completable_fragmentType (name : String) : Completable (.fragmentType name) :=
  completable_of_to (.name "a") rfl (completable_of_exit (.fragment ⟨name, "a", [], []⟩) rfl)

theorem completable_fragmentName (name : String) : Completable (.fragmentName name) :=
  completable_of_to (.name "on") rfl (completable_fragmentType name)

theorem completable_directiveName (site : Site) (name : String) :
    Completable (.directiveName site name) := by
  refine completable_of_exit (site.attach ⟨name, []⟩) ?_
  cases site <;> rfl

/-- From every place some lexemes lead to the end of a definition. -/
theorem completable (f : Focus) : Completable f := by
  cases f with
  | between => exact completable_of_to (.mark .openBrace) rfl (completable_block _)
  | operationKeyword op => exact completable_of_exit (.operation op) rfl
  | operationName op => exact completable_of_exit (.operation op) rfl
  | variableDefinitions op =>
    exact completable_of_to (.mark .dollar) rfl (completable_variableSign op)
  | variableSign op => exact completable_variableSign op
  | variableName op name => exact completable_variableName op name
  | typeStart op name depth =>
    exact completable_of_to (.name "a") rfl (completable_typeEnd op name depth _ _)
  | typeEnd op name depth type marked => exact completable_typeEnd op name depth type marked
  | fragmentKeyword => exact completable_of_to (.name "a") rfl (completable_fragmentName "a")
  | fragmentName name => exact completable_fragmentName name
  | fragmentType name => exact completable_fragmentType name
  | site s => exact completable_of_exit s rfl
  | directiveSign s => exact completable_of_to (.name "a") rfl (completable_directiveName s "a")
  | directiveName s name => exact completable_directiveName s name
  | arguments holder =>
    exact completable_of_to (.name "a") rfl (completable_argumentName holder "a")
  | argumentName holder name => exact completable_argumentName holder name
  | value slot => exact completable_value slot
  | variableUse slot => exact completable_of_to (.name "a") rfl (completable_fill slot _)
  | list outer items => exact completable_of_to (.mark .closeBracket) rfl (completable_fill outer _)
  | object outer members =>
    exact completable_of_to (.mark .closeBrace) rfl (completable_fill outer _)
  | memberName outer members name =>
    exact completable_of_to (.mark .colon) rfl (completable_value _)
  | block b => exact completable_block b
  | fieldStart b name => exact completable_of_exit (.field b (.plain name)) rfl
  | aliasColon b aliasName =>
    exact completable_of_to (.name "a") rfl
      (completable_of_exit (.field b ⟨some aliasName, "a", [], []⟩) rfl)
  | fieldName b f => exact completable_of_exit (.field b f) rfl
  | dots b => exact completable_of_exit (.inline b ⟨none, []⟩) rfl
  | inlineType b =>
    exact completable_of_to (.name "a") rfl (completable_of_exit (.inline b ⟨some "a", []⟩) rfl)

namespace State

variable {s : State} {stop : Position} {tokens : List Token}

/-- Lexemes in two parts are read one part after the other. -/
theorem read_append (s : State) (ls more : List Lexeme) :
    s.read (ls ++ more) = (s.read ls).bind fun t => t.read more := by
  induction ls generalizing s with
  | nil => rfl
  | cons l ls ih =>
    rw [List.cons_append, read, read, Option.bind_assoc]
    exact congrArg _ (funext ih)

/-- From every state some lexemes lead to one in which a document may end. -/
theorem exists_document (s : State) :
    ∃ ls t, s.read ls = some t ∧ ∃ d, t.document? = some d := by
  obtain ⟨ls, x, h⟩ := completable s.focus s.definitions
  exact ⟨ls, _, h, _, if_neg (by simp)⟩

/-- An error lies at the token for which it is raised, or at the end. -/
theorem position_error (f : Focus) (found : Option Lexeme) (position : Position) :
    (f.error found position).position = position := by
  unfold Focus.error
  split <;> rfl

/-- A run that fails stops at the first token that cannot stand where it does, or at the end if
all of them can. -/
theorem exists_of_run_eq_error {e : ReadError} (h : s.run stop tokens = .error e) :
    ∃ before after t, tokens = before ++ after ∧
      s.read (before.map Token.lexeme) = some t ∧
      match after with
      | [] => e.position = stop
      | token :: _ => t.next token.lexeme = none ∧ e.position = token.position := by
  induction tokens generalizing s with
  | nil =>
    refine ⟨[], [], s, rfl, rfl, ?_⟩
    rw [run] at h
    split at h <;> cases h
    exact position_error ..
  | cons token rest ih =>
    rw [run] at h
    split at h
    · rename_i u hu
      obtain ⟨before, after, t, rfl, ht, hafter⟩ := ih h
      refine ⟨token :: before, after, t, rfl, ?_, hafter⟩
      rw [List.map_cons, read, hu]
      exact ht
    · rename_i hn
      cases h
      exact ⟨[], token :: rest, s, rfl, rfl, hn, position_error ..⟩

end State

end Grammar

namespace Document

/-- The error of a text that has tokens but denotes no document lies at exactly one of its tokens,
or at its end. The tokens before that one are the beginning of some document; with it, they are the
beginning of none. -/
theorem error_at_first_offence {source : String} {stream : TokenStream} {e : ReadError}
    (ht : Lexer.tokenize source = .ok stream) (he : parse source = .error e) :
    ∃ i, (∀ j, stream.positions[j]? = some e.position ↔ j = i) ∧
      (∃ more stop d, ofTokens ⟨stream.tokens.take i ++ more, stop⟩ = .ok d) ∧
      (i < stream.tokens.length →
        ∀ more stop d, ofTokens ⟨stream.tokens.take (i + 1) ++ more, stop⟩ ≠ .ok d) := by
  have hrun : Grammar.State.initial.run stream.stop stream.tokens = .error e := by
    rw [parse, ht] at he
    exact he
  obtain ⟨before, after, t, htokens, hread, hafter⟩ := Grammar.State.exists_of_run_eq_error hrun
  have htake : stream.tokens.take before.length = before := by simp [htokens]
  refine ⟨before.length, fun j => ?_, ?_, fun hi more stop d hd => ?_⟩
  · have hpos : stream.positions[before.length]? = some e.position := by
      cases after with
      | nil => simp [TokenStream.positions, htokens, hafter]
      | cons token rest => simp [TokenStream.positions, htokens, hafter.2]
    obtain ⟨hlt, -⟩ := List.getElem?_eq_some_iff.mp hpos
    rw [← hpos, eq_comm, List.getElem?_inj hlt (Lexer.nodup_positions ht), eq_comm]
  · obtain ⟨ls, u, hls, d, hd⟩ := t.exists_document
    refine ⟨ls.map fun l => ⟨l, stream.stop⟩, stream.stop, d, ?_⟩
    rw [htake]
    refine Grammar.State.run_eq_ok_iff.mpr ⟨u, ?_, hd⟩
    rw [List.map_append, Grammar.State.read_append, hread, Option.bind_some]
    simpa [Function.comp_def] using hls
  · cases after with
    | nil => simp [htokens] at hi
    | cons token rest =>
      obtain ⟨u, hu, -⟩ := Grammar.State.run_eq_ok_iff.mp hd
      have hnext : stream.tokens.take (before.length + 1) = before ++ [token] := by
        rw [htokens, List.take_length_add_append]
        rfl
      simp [hnext, Grammar.State.read_append, hread, Grammar.State.read, hafter.1] at hu

/-- A variable inside a default value, on the line on which a block string before it ends. -/
theorem error_at_first_offence_variable :
    ∃ stream,
      Lexer.tokenize "query($a:[b]=[\"\"\"c\r\nd\"\"\",$e])@f{g}" = .ok stream ∧
      ∃ e, parse "query($a:[b]=[\"\"\"c\r\nd\"\"\",$e])@f{g}" = .error e ∧
        e = .malformed ⟨2, 6⟩ .variableInConstant ∧
        ∃ i, (∀ j, stream.positions[j]? = some e.position ↔ j = i) ∧
          (∃ more stop d, ofTokens ⟨stream.tokens.take i ++ more, stop⟩ = .ok d) ∧
          (i < stream.tokens.length →
            ∀ more stop d, ofTokens ⟨stream.tokens.take (i + 1) ++ more, stop⟩ ≠ .ok d) := by
  have hlex : (Lexer.tokenize "query($a:[b]=[\"\"\"c\r\nd\"\"\",$e])@f{g}").map
      (fun _ => ()) = .ok () := by decide +kernel
  have he : parse "query($a:[b]=[\"\"\"c\r\nd\"\"\",$e])@f{g}" =
      .error (.malformed ⟨2, 6⟩ .variableInConstant) := by decide +kernel
  cases ht : Lexer.tokenize "query($a:[b]=[\"\"\"c\r\nd\"\"\",$e])@f{g}" with
  | error e =>
    rw [ht] at hlex
    cases hlex
  | ok stream => exact ⟨stream, rfl, _, he, rfl, error_at_first_offence ht he⟩

end Document

end Safelist
