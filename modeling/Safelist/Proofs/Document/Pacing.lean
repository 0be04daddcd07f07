import Mathlib.Data.List.Induction
import Safelist.Proofs.Document.Descent
import Safelist.Proofs.Document.Lookahead

/-!
# Readers that end

A reader is followed from moment to moment. Every moment must fit: the cursor is not behind
the end of the tokens, each call is admitted by the calls around it, and the cursor has moved
between the turns of a loop. Beside the reader stands the grammar, where the tokens before the
cursor have led it; when the reader fails, so does the grammar, with the same error.
-/

namespace Safelist

open Lexical

namespace Lexical.TokenStream

variable {ts : TokenStream} {i : Nat}

/-- At the end nothing is left. -/
theorem drop_of_none (h : ts.lexeme? i = none) :
    ts.tokens.drop i = [] ∧ ts.positionAt i = ts.stop := by
  have hi : ts.tokens[i]? = none := Option.map_eq_none_iff.1 h
  refine ⟨List.drop_eq_nil_of_le (List.getElem?_eq_none_iff.1 hi), ?_⟩
  rw [TokenStream.positionAt, hi]
  rfl

/-- At a lexeme, its token and those behind it are left. -/
theorem drop_of_some {l : Lexeme} (h : ts.lexeme? i = some l) :
    ts.tokens.drop i = ⟨l, ts.positionAt i⟩ :: ts.tokens.drop (i + 1) := by
  obtain ⟨token, htoken, rfl⟩ := Option.map_eq_some_iff.1 h
  obtain ⟨hi, rfl⟩ := List.getElem?_eq_some_iff.1 htoken
  rw [List.drop_eq_getElem_cons hi, positionAt, htoken]
  rfl

theorem lt_of_lexeme? {l : Lexeme} (h : ts.lexeme? i = some l) : i < ts.tokens.length := by
  by_contra hle
  have hnil := drop_of_some h
  rw [List.drop_eq_nil_of_le (Nat.le_of_not_lt hle)] at hnil
  cases hnil

end Lexical.TokenStream

namespace Descent

open Grammar

/-- A routine is entered below another one at the same cursor only if its rank is smaller. -/
def Routine.rank : Routine → Nat
  | .document => 11
  | .definition => 10
  | .operation => 9
  | .fragment => 8
  | .variableDefinitions => 7
  | .selectionSet => 6
  | .selection => 5
  | .field => 4
  | .directives => 3
  | .arguments => 2
  | .value => 1
  | .type => 0

/-- Below a call, a routine may be entered when the cursor has moved, or else when the
routine has a smaller rank. -/
def Call.Admits (outer : Call) (routine : Routine) (entry : Nat) : Prop :=
  outer.entry < entry ∨ outer.entry = entry ∧ routine.rank < outer.routine.rank

theorem Call.Admits.trans {outer middle : Call} {routine : Routine} {entry : Nat}
    (ho : outer.Admits middle.routine middle.entry) (hm : middle.Admits routine entry) :
    outer.Admits routine entry := by
  unfold Admits at *
  omega

/-- What holds at every moment of a run over some tokens. -/
structure Moment.Fits (ts : TokenStream) (m : Moment) : Prop where
  /-- The cursor is at a token or at the end. -/
  cursor_le : m.cursor ≤ ts.tokens.length
  /-- Every call is admitted by those around it. -/
  admitted : m.calls.Pairwise fun inner outer => outer.Admits inner.routine inner.entry
  /-- Between the turns of a loop the cursor has moved. -/
  turns : ∀ c ∈ m.calls, c.turns.Pairwise (· > ·)

/-- A log fits when each of its moments does. -/
def LogFits (ts : TokenStream) (log : List Event) : Prop :=
  ∀ earlier, earlier <+: log → (Moment.ofLog earlier).Fits ts

theorem Moment.ofLog_concat (log : List Event) (e : Event) :
    ofLog (log ++ [e]) = (ofLog log).after e := by
  simp [ofLog]

theorem LogFits.concat {ts : TokenStream} {log : List Event} (h : LogFits ts log) {e : Event}
    (he : ((Moment.ofLog log).after e).Fits ts) : LogFits ts (log ++ [e]) := by
  intro earlier hearlier
  rcases List.prefix_concat_iff.1 hearlier with rfl | hbefore
  · rwa [Moment.ofLog_concat]
  · exact h earlier hbefore

/-- The cursor has been advanced as often as it tells. -/
theorem cursor_ofLog (log : List Event) : (Moment.ofLog log).cursor = log.count .advance := by
  induction log using List.reverseRecOn with
  | nil => rfl
  | append_singleton log e ih =>
    rw [Moment.ofLog_concat, List.count_append, ← ih]
    cases e <;> simp [Moment.after]

/-- A run of which every moment fits is paced: a routine is not admitted below itself unless the
cursor has moved. -/
theorem LogFits.isPaced {ts : TokenStream} {log : List Event} (h : LogFits ts log) :
    IsPaced ts log where
  inBounds earlier hearlier := (h earlier hearlier).cursor_le
  reentered earlier hearlier := (h earlier hearlier).admitted.imp fun hadmits hsame =>
    hadmits.resolve_right fun hrank => (hsame ▸ hrank.2).false
  turned earlier hearlier := (h earlier hearlier).turns
  advances := by
    have hcursor := (h log (List.prefix_refl log)).cursor_le
    rw [cursor_ofLog] at hcursor
    omega

/-- The innermost call admits a routine. -/
def Admitted (calls : List Call) (routine : Routine) (entry : Nat) : Prop :=
  ∀ c ∈ calls.head?, c.Admits routine entry

section Fits

variable {ts : TokenStream} {i : Nat} {calls : List Call}

/-- The cursor may be advanced past a token. -/
theorem Moment.Fits.advance {l : Lexeme} (h : Moment.Fits ts ⟨i, calls⟩)
    (hl : ts.lexeme? i = some l) : Moment.Fits ts ⟨i + 1, calls⟩ :=
  ⟨TokenStream.lt_of_lexeme? hl, h.admitted, h.turns⟩

/-- A routine may be entered that the innermost call admits. -/
theorem Moment.Fits.enter {routine : Routine} (h : Moment.Fits ts ⟨i, calls⟩)
    (ha : Admitted calls routine i) : Moment.Fits ts ⟨i, ⟨routine, i, []⟩ :: calls⟩ := by
  -- those further out admit the innermost call, and so all that it admits
  have hall : ∀ outer ∈ calls, outer.Admits routine i := by
    cases calls with
    | nil => simp
    | cons inner rest =>
      have hinner : inner.Admits routine i := ha inner rfl
      intro outer houter
      rcases List.mem_cons.1 houter with rfl | houter
      · exact hinner
      · exact (List.rel_of_pairwise_cons h.admitted houter).trans hinner
  exact ⟨h.cursor_le, List.pairwise_cons.2 ⟨hall, h.admitted⟩,
    List.forall_mem_cons.2 ⟨List.Pairwise.nil, h.turns⟩⟩

/-- A routine may be left. -/
theorem Moment.Fits.leave (h : Moment.Fits ts ⟨i, calls⟩) : Moment.Fits ts ⟨i, calls.tail⟩ :=
  ⟨h.cursor_le, h.admitted.tail, fun c hc => h.turns c (List.mem_of_mem_tail hc)⟩

/-- A call whose loop has begun another turn. -/
def Call.turned (c : Call) (i : Nat) : Call := { c with turns := i :: c.turns }

/-- A loop may begin another turn when the cursor has moved since the turns before. -/
theorem Moment.Fits.turn {c : Call} (h : Moment.Fits ts ⟨i, c :: calls⟩)
    (hc : ∀ t ∈ c.turns, t < i) : Moment.Fits ts ⟨i, c.turned i :: calls⟩ := by
  obtain ⟨hturns, hrest⟩ := List.forall_mem_cons.1 h.turns
  refine ⟨h.cursor_le, List.pairwise_cons.2 (List.pairwise_cons.1 h.admitted), ?_⟩
  exact List.forall_mem_cons.2 ⟨List.pairwise_cons.2 ⟨hc, hturns⟩, hrest⟩

/-- A call that was entered before the cursor was moved here admits every routine. -/
theorem Admitted.of_lt {c : Call} (h : c.entry < i) (routine : Routine) :
    Admitted (c :: calls) routine i := by
  rintro _ ⟨⟩
  exact .inl h

/-- A call admits a routine of smaller rank. -/
theorem Admitted.of_rank {c : Call} {routine : Routine} (h : c.entry ≤ i)
    (hrank : routine.rank < c.routine.rank) : Admitted (c :: calls) routine i := by
  rintro _ ⟨⟩
  exact (Nat.lt_or_eq_of_le h).imp_right fun heq => ⟨heq, hrank⟩

/-- A call whose loop may begin a turn. -/
structure Call.AtTurn (c : Call) (routine : Routine) (i : Nat) : Prop where
  /-- It is a call of this routine. -/
  routine_eq : c.routine = routine
  /-- The cursor is not before its entry. -/
  entry_le : c.entry ≤ i
  /-- The cursor is behind the turns before. -/
  turns_lt : ∀ t ∈ c.turns, t < i

/-- The first turn is taken at the entry of the routine or behind it. -/
theorem Call.AtTurn.first {routine : Routine} {entry : Nat} (h : entry ≤ i) :
    Call.AtTurn ⟨routine, entry, []⟩ routine i :=
  ⟨rfl, h, nofun⟩

section AtTurn

variable {c : Call} {routine : Routine} {j : Nat}

/-- When the cursor has moved, another turn may be taken. -/
theorem Call.AtTurn.turned (h : c.AtTurn routine i) (hij : i < j) :
    (c.turned i).AtTurn routine j :=
  ⟨h.routine_eq, h.entry_le.trans hij.le,
    List.forall_mem_cons.2 ⟨hij, fun t ht => (h.turns_lt t ht).trans hij⟩⟩

/-- In a turn, every routine may be entered once the cursor has moved. -/
theorem Call.AtTurn.admits (h : c.AtTurn routine i) (hij : i < j) (inner : Routine) :
    Admitted (c.turned i :: calls) inner j :=
  .of_lt (c := c.turned i) (Nat.lt_of_le_of_lt h.entry_le hij) inner

/-- In a turn, routines of smaller rank may be entered at once. -/
theorem Call.AtTurn.admits_of_rank (h : c.AtTurn routine i) {inner : Routine}
    (hrank : inner.rank < routine.rank) : Admitted (c.turned i :: calls) inner i :=
  .of_rank (c := c.turned i) h.entry_le (h.routine_eq ▸ hrank)

end AtTurn

end Fits

/-- At a cursor, what is left of the tokens is read by the grammar from a state on. -/
def Stands (ts : TokenStream) (i : Nat) (s : State) : Prop :=
  Document.ofTokens ts = s.run ts.stop (ts.tokens.drop i)

section Stands

variable {ts : TokenStream} {i : Nat} {ds : List Definition} {f g : Focus} {l : Lexeme}

theorem Stands.initial (ts : TokenStream) : Stands ts 0 .initial := rfl

/-- The grammar takes the lexeme at the cursor. -/
theorem Stands.next {s t : State} (h : Stands ts i s) (hl : ts.lexeme? i = some l)
    (hn : s.next l = some t) : Stands ts (i + 1) t := by
  rw [Stands, TokenStream.drop_of_some hl, State.run, hn] at h
  exact h

/-- The lexeme at the cursor leads to another place. -/
theorem Stands.to (h : Stands ts i ⟨ds, f⟩) (hl : ts.lexeme? i = some l)
    (hn : f.next l = some (.to g)) : Stands ts (i + 1) ⟨ds, g⟩ :=
  h.next hl (by rw [State.next, hn])

/-- The grammar ends with a document where one may end. -/
theorem Stands.ok {s : State} {d : Document} (h : Stands ts i s) (hl : ts.lexeme? i = none)
    (hd : s.document? = some d) : Document.ofTokens ts = .ok d := by
  rw [Stands, (TokenStream.drop_of_none hl).1, State.run, hd] at h
  exact h

/-- The grammar fails where what is at the cursor leads nowhere. -/
theorem Stands.error {s : State} (h : Stands ts i s)
    (hn : ∀ l, ts.lexeme? i = some l → s.focus.next l = none)
    (hd : ts.lexeme? i = none → s.document? = none) :
    Document.ofTokens ts = .error (s.focus.error (ts.lexeme? i) (ts.positionAt i)) := by
  rw [Stands] at h
  cases hl : ts.lexeme? i with
  | none =>
    obtain ⟨hdrop, hposition⟩ := TokenStream.drop_of_none hl
    rw [h, hdrop, State.run, hd hl, hposition]
  | some l =>
    have hs : s.next l = none := by rw [State.next, hn l hl]
    rw [h, TokenStream.drop_of_some hl, State.run, hs]

/-- The grammar fails where something else is asked for. -/
theorem Stands.misses {what : Expected} (h : Stands ts i ⟨ds, f⟩)
    (hm : f.Misses what (ts.lexeme? i)) :
    Document.ofTokens ts =
      .error (.malformed (ts.positionAt i) (.expected what (ts.lexeme? i))) := by
  have hd : ts.lexeme? i = none → State.document? ⟨ds, f⟩ = none := by
    intro hl
    cases f with
    | between =>
      have herror := hm.error (ts.positionAt i)
      rw [hl] at herror
      cases herror
    | _ => rfl
  rw [h.error hm.next hd, hm.error]

/-- Places that do the same with what is at the cursor can stand for one another. -/
theorem Stands.alike (h : Stands ts i ⟨ds, f⟩) (ha : f.Alike g (ts.lexeme? i)) :
    Stands ts i ⟨ds, g⟩ := by
  rw [Stands] at *
  have herror := ha.error (ts.positionAt i)
  cases hl : ts.lexeme? i with
  | none =>
    obtain ⟨hdrop, hposition⟩ := TokenStream.drop_of_none hl
    rw [hl, hposition] at herror
    rw [h, hdrop, State.run, State.run, ha.ends, herror]
  | some l =>
    rw [hl] at herror
    rw [h, TokenStream.drop_of_some hl, State.run, State.run, State.next, State.next,
      ha.next l hl, herror]

end Stands

/-- A reader ends when it is run from a moment, and every moment of its run fits. Its result
and the moment at which it ends are as given; when it fails, so does the grammar. -/
def Ends (ts : TokenStream) {α : Type} (r : Reader α) (m : Moment) (Q : α → Moment → Prop) : Prop :=
  ∀ log, LogFits ts log → Moment.ofLog log = m →
    ∃ answer log', r.run.run log = some (answer, log') ∧ LogFits ts log' ∧
      match answer with
      | .ok a => Q a (Moment.ofLog log')
      | .error e => Document.ofTokens ts = .error e

/-- The calls at work are these, and the result and the cursor are as given. -/
def Kept {α : Type} (calls : List Call) (P : α → Nat → Prop) (a : α) (m : Moment) : Prop :=
  m.calls = calls ∧ P a m.cursor

/-- The calls at work around the innermost one are these, and the result and the cursor are as
given. -/
def Around {α : Type} (calls : List Call) (P : α → Nat → Prop) (a : α) (m : Moment) : Prop :=
  m.calls.tail = calls ∧ P a m.cursor

namespace Ends

variable {ts : TokenStream} {α β : Type} {m : Moment} {Q : α → Moment → Prop}
  {R : β → Moment → Prop}

theorem pure {a : α} (h : Q a m) : Ends ts (Pure.pure a) m Q :=
  fun log hfit hlog => ⟨.ok a, log, rfl, hfit, hlog ▸ h⟩

theorem throw {e : ReadError} (h : Document.ofTokens ts = .error e) :
    Ends ts (MonadExcept.throw e : Reader α) m Q :=
  fun log hfit _ => ⟨.error e, log, rfl, hfit, h⟩

theorem bind {r : Reader α} {k : α → Reader β} (h : Ends ts r m Q)
    (hk : ∀ a n, Q a n → Ends ts (k a) n R) : Ends ts (r >>= k) m R := by
  intro log hfit hlog
  obtain ⟨answer, log', hrun, hfit', hanswer⟩ := h log hfit hlog
  cases answer with
  | ok a =>
    obtain ⟨answer, log'', hrun', hfit'', hanswer'⟩ := hk a _ hanswer log' hfit' rfl
    refine ⟨answer, log'', ?_, hfit'', hanswer'⟩
    rw [ExceptT.run_bind, StateT.run_bind, hrun]
    exact hrun'
  | error e =>
    refine ⟨.error e, log', ?_, hfit', hanswer⟩
    rw [ExceptT.run_bind, StateT.run_bind, hrun]
    rfl

theorem mono {Q' : α → Moment → Prop} {r : Reader α} (h : Ends ts r m Q)
    (hq : ∀ a n, Q a n → Q' a n) : Ends ts r m Q' := by
  intro log hfit hlog
  obtain ⟨answer, log', hrun, hfit', hanswer⟩ := h log hfit hlog
  refine ⟨answer, log', hrun, hfit', ?_⟩
  cases answer with
  | ok a => exact hq a _ hanswer
  | error e => exact hanswer

/-- The moment from which a reader sets out fits. -/
theorem of_fits {r : Reader α} (h : m.Fits ts → Ends ts r m Q) : Ends ts r m Q :=
  fun log hfit hlog => h (hlog ▸ hfit log (List.prefix_refl log)) log hfit hlog

theorem tell_bind {e : Event} {k : Unit → Reader β} (h : m.Fits ts → (m.after e).Fits ts)
    (hk : Ends ts (k ()) (m.after e) R) : Ends ts (tell e >>= k) m R := by
  have htell : Ends ts (tell e) m fun _ n => n = m.after e := by
    refine of_fits fun hm => ?_
    intro log hfit hlog
    refine ⟨.ok (), log ++ [e], rfl, hfit.concat (hlog ▸ h hm), ?_⟩
    rw [Moment.ofLog_concat, hlog]
  exact htell.bind fun _ _ hn => hn ▸ hk

variable {i : Nat} {calls : List Call} {P : α → Nat → Prop}

theorem cursor_bind {k : Nat → Reader β} (hk : Ends ts (k i) ⟨i, calls⟩ R) :
    Ends ts (cursor >>= k) ⟨i, calls⟩ R := by
  have hcursor : Ends ts cursor ⟨i, calls⟩ fun j n => j = i ∧ n = ⟨i, calls⟩ :=
    fun log hfit hlog => ⟨.ok _, log, rfl, hfit, by rw [hlog], hlog⟩
  exact hcursor.bind fun _ _ h => h.1 ▸ h.2 ▸ hk

theorem peek_bind {k : Option Lexeme → Reader β} (hk : Ends ts (k (ts.lexeme? i)) ⟨i, calls⟩ R) :
    Ends ts (ts.peek >>= k) ⟨i, calls⟩ R := by
  rw [TokenStream.peek, bind_assoc]
  refine cursor_bind ?_
  rwa [pure_bind]

theorem position_bind {k : Position → Reader β} (hk : Ends ts (k (ts.positionAt i)) ⟨i, calls⟩ R) :
    Ends ts (ts.position >>= k) ⟨i, calls⟩ R := by
  rw [TokenStream.position, bind_assoc]
  refine cursor_bind ?_
  rwa [pure_bind]

theorem advance_bind {k : Option Lexeme → Reader β} {l : Lexeme} (hl : ts.lexeme? i = some l)
    (hk : Ends ts (k (some l)) ⟨i + 1, calls⟩ R) : Ends ts (ts.advance >>= k) ⟨i, calls⟩ R := by
  rw [TokenStream.advance, bind_assoc]
  refine peek_bind ?_
  rw [hl, bind_assoc]
  refine tell_bind (fun hfit => hfit.advance hl) ?_
  rwa [pure_bind]

/-- At the end of the text the cursor stays. -/
theorem advance_bind_of_none {k : Option Lexeme → Reader β} (hl : ts.lexeme? i = none)
    (hk : Ends ts (k none) ⟨i, calls⟩ R) : Ends ts (ts.advance >>= k) ⟨i, calls⟩ R := by
  rw [TokenStream.advance, bind_assoc]
  refine peek_bind ?_
  rw [hl]
  exact hk

theorem fail {problem : Problem}
    (h : Document.ofTokens ts = .error (.malformed (ts.positionAt i) problem)) :
    Ends ts (ts.fail problem) ⟨i, calls⟩ Q :=
  position_bind (throw h)

theorem unexpected (h : Document.ofTokens ts =
      .error (.malformed (ts.positionAt i) (.unexpected (ts.lexeme? i)))) :
    Ends ts ts.unexpected ⟨i, calls⟩ Q :=
  peek_bind (fail h)

theorem skip_bind {mark : Mark} {yes no : Reader β}
    (hyes : ts.lexeme? i = some (.mark mark) → Ends ts yes ⟨i + 1, calls⟩ R)
    (hno : ts.lexeme? i ≠ some (.mark mark) → Ends ts no ⟨i, calls⟩ R) :
    Ends ts (ts.skip mark >>= fun found => if found = true then yes else no) ⟨i, calls⟩ R := by
  rw [TokenStream.skip, bind_assoc]
  refine peek_bind ?_
  by_cases hl : ts.lexeme? i = some (.mark mark)
  · rw [if_pos hl, bind_assoc]
    refine advance_bind hl ?_
    rw [pure_bind, if_pos rfl]
    exact hyes hl
  · rw [if_neg hl, pure_bind, if_neg Bool.false_ne_true]
    exact hno hl

variable {ds : List Definition} {f : Focus}

theorem expect_bind {mark : Mark} {g : Focus} {k : Unit → Reader β} (hs : Stands ts i ⟨ds, f⟩)
    (hn : f.next (.mark mark) = some (.to g))
    (hm : ts.lexeme? i ≠ some (.mark mark) → f.Misses (.mark mark) (ts.lexeme? i))
    (hk : Stands ts (i + 1) ⟨ds, g⟩ → Ends ts (k ()) ⟨i + 1, calls⟩ R) :
    Ends ts (ts.expect mark >>= k) ⟨i, calls⟩ R := by
  have hexpect : Ends ts (ts.expect mark) ⟨i, calls⟩ fun _ n =>
      ts.lexeme? i = some (.mark mark) ∧ n = ⟨i + 1, calls⟩ :=
    skip_bind (fun hl => pure ⟨hl, rfl⟩) fun hl => peek_bind (fail (hs.misses (hm hl)))
  exact hexpect.bind fun _ _ h => h.2 ▸ hk (hs.to h.1 hn)

theorem name_bind {g : String → Focus} {k : String → Reader β} (hs : Stands ts i ⟨ds, f⟩)
    (hn : ∀ name, ts.lexeme? i = some (.name name) → f.next (.name name) = some (.to (g name)))
    (hm : (∀ name, ts.lexeme? i ≠ some (.name name)) → f.Misses .name (ts.lexeme? i))
    (hk : ∀ name, ts.lexeme? i = some (.name name) → Stands ts (i + 1) ⟨ds, g name⟩ →
      Ends ts (k name) ⟨i + 1, calls⟩ R) :
    Ends ts (ts.expectName >>= k) ⟨i, calls⟩ R := by
  rw [TokenStream.expectName, bind_assoc]
  refine peek_bind ?_
  split
  next name hl =>
    rw [bind_assoc]
    refine advance_bind hl ?_
    rw [pure_bind]
    exact hk name hl (hs.to hl (hn name hl))
  next hl =>
    exact (fail (hs.misses (hm hl)) : Ends ts _ _ fun _ _ => False).bind nofun

/-- A name is taken where nothing else may stand. -/
theorem onlyName_bind {g : String → Focus} {k : String → Reader β} (hs : Stands ts i ⟨ds, f⟩)
    (hf : f.afterName? = some g)
    (hk : ∀ name, Stands ts (i + 1) ⟨ds, g name⟩ → Ends ts (k name) ⟨i + 1, calls⟩ R) :
    Ends ts (ts.expectName >>= k) ⟨i, calls⟩ R :=
  name_bind hs (fun name _ => next_of_afterName hf name) (misses_of_afterName hf)
    fun name _ => hk name

/-- A colon is taken where nothing else may stand. -/
theorem colon_bind {g : Focus} {k : Unit → Reader β} (hs : Stands ts i ⟨ds, f⟩)
    (hf : f.afterColon? = some g)
    (hk : Stands ts (i + 1) ⟨ds, g⟩ → Ends ts (k ()) ⟨i + 1, calls⟩ R) :
    Ends ts (ts.expect .colon >>= k) ⟨i, calls⟩ R :=
  expect_bind hs (next_of_afterColon hf) (misses_of_afterColon hf) hk

theorem keyword_bind {word : String} {g : Focus} {k : Unit → Reader β} (hs : Stands ts i ⟨ds, f⟩)
    (hn : f.next (.name word) = some (.to g))
    (hm : ts.lexeme? i ≠ some (.name word) → f.Misses (.keyword word) (ts.lexeme? i))
    (hk : Stands ts (i + 1) ⟨ds, g⟩ → Ends ts (k ()) ⟨i + 1, calls⟩ R) :
    Ends ts (ts.expectKeyword word >>= k) ⟨i, calls⟩ R := by
  rw [TokenStream.expectKeyword, bind_assoc]
  refine peek_bind ?_
  by_cases hl : ts.lexeme? i = some (.name word)
  · rw [if_pos hl, bind_assoc]
    refine advance_bind hl ?_
    rw [pure_bind]
    exact hk (hs.to hl hn)
  · rw [if_neg hl, bind_assoc]
    exact peek_bind ((fail (hs.misses (hm hl)) : Ends ts _ _ fun _ _ => False).bind nofun)

/-- After a reader that keeps the calls at work, the next one goes on among them. -/
theorem kept_bind {r : Reader α} {k : α → Reader β} (h : Ends ts r m (Kept calls P))
    (hk : ∀ a j, P a j → Ends ts (k a) ⟨j, calls⟩ R) : Ends ts (r >>= k) m R := by
  refine h.bind fun a n hn => ?_
  obtain ⟨j, _⟩ := n
  obtain ⟨rfl, hp⟩ := hn
  exact hk a j hp

variable {P' : α → Nat → Prop}

/-- A reader that keeps all calls keeps those around the innermost one. -/
theorem kept_around {r : Reader α} {c : Call} (h : Ends ts r m (Kept (c :: calls) P))
    (hp : ∀ a j, P a j → P' a j) : Ends ts r m (Around calls P') :=
  h.mono fun a n hn => ⟨congrArg List.tail hn.1, hp a n.cursor hn.2⟩

theorem around_mono {r : Reader α} (h : Ends ts r m (Around calls P))
    (hp : ∀ a j, P a j → P' a j) : Ends ts r m (Around calls P') :=
  h.mono fun a n hn => ⟨hn.1, hp a n.cursor hn.2⟩

/-- What ends behind a later place ends behind this one. -/
theorem around_lt {r : Reader α} {j : Nat} (hij : i < j)
    (h : Ends ts r m (Around calls fun a n => j < n ∧ P a n)) :
    Ends ts r m (Around calls fun a n => i < n ∧ P a n) :=
  h.around_mono fun _ _ hn => ⟨hij.trans hn.1, hn.2⟩

/-- A routine that may be entered keeps the calls at work. -/
theorem within {routine : Routine} {work : Reader α} (ha : Admitted calls routine i)
    (h : Ends ts work ⟨i, ⟨routine, i, []⟩ :: calls⟩ (Around calls P)) :
    Ends ts (within routine work) ⟨i, calls⟩ (Kept calls P) := by
  refine tell_bind (fun hfit => hfit.enter ha) (h.bind fun a n hn => ?_)
  refine tell_bind (fun hfit => hfit.leave) (pure ?_)
  exact hn

/-- A turn of a loop begins. -/
theorem turn_bind {c : Call} {routine : Routine} {k : Unit → Reader β} (hc : c.AtTurn routine i)
    (hk : Ends ts (k ()) ⟨i, c.turned i :: calls⟩ R) :
    Ends ts (Descent.tell .turn >>= k) ⟨i, c :: calls⟩ R :=
  tell_bind (fun hfit => hfit.turn hc.turns_lt) hk

end Ends

end Descent

end Safelist
