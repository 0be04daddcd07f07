import Mathlib.Data.Prod.Lex
import Safelist.Lexical.Lexer

/-!
# Every token has a place of its own

Positions stand in the order of reading: by line, and in a line by column. Reading
on never goes back, and it stays where it is only between a carriage return and a
line feed. As no token begins with a carriage return, every token lies behind those
before it and before the end of the text. So a position tells which token lies at
it, or that the text ends there.
-/

namespace Safelist.Lexical

namespace Position

/-- Where a position stands in the order of reading. -/
def rank (p : Position) : Nat ×ₗ Nat := toLex (p.line, p.column)

theorem rank_lt_iff {p q : Position} :
    p.rank < q.rank ↔ p.line < q.line ∨ p.line = q.line ∧ p.column < q.column :=
  Prod.Lex.toLex_lt_toLex

/-- Every character but a carriage return is left behind. -/
theorem rank_lt_past (p : Position) {c : Char} (hc : c ≠ '\r') (next : Option Char) :
    p.rank < (p.past c next).rank := by
  rw [rank_lt_iff]
  rw [past, if_neg hc]
  split
  · exact .inl (Nat.lt_succ_self _)
  · exact .inr ⟨rfl, Nat.lt_succ_self _⟩

/-- No character leads back. -/
theorem rank_le_past (p : Position) (c : Char) (next : Option Char) :
    p.rank ≤ (p.past c next).rank := by
  by_cases hc : c = '\r'
  · subst hc
    by_cases hn : next = some '\n'
    · simp [past, hn]
    · refine le_of_lt (rank_lt_iff.mpr ?_)
      simp [past, hn]
  · exact le_of_lt (p.rank_lt_past hc next)

/-- Reading on does not lead back. -/
theorem rank_le_advance (p : Position) (cs : List Char) (n : Nat) :
    p.rank ≤ (p.advance cs n).rank := by
  induction n generalizing p cs with
  | zero => rw [advance_zero]
  | succ n ih =>
    cases cs with
    | nil => exact le_rfl
    | cons c rest => exact (p.rank_le_past c rest.head?).trans (ih _ _)

end Position

/-- The positions of the tokens in order, and behind them the end of the text. -/
def TokenStream.positions (stream : TokenStream) : List Position :=
  stream.tokens.map Token.position ++ [stream.stop]

namespace Lexer

/-- A carriage return begins no token. -/
theorem ne_carriageReturn {c : Char} (h : ¬isIgnored c = true) : c ≠ '\r' := by
  rintro rfl
  exact h (by decide)

/-- The tokens of a text lie one behind the other, none of them before the text begins. -/
theorem positions_of_scan {p : Position} {cs : List Char} {stream : TokenStream}
    (h : scan p cs = .ok stream) :
    (stream.positions.Pairwise fun q q' => q.rank < q'.rank) ∧
      ∀ q ∈ stream.positions, p.rank ≤ q.rank := by
  fun_induction scan p cs generalizing stream with
  | case1 p =>
    cases h
    simp [TokenStream.positions]
  | case2 p c rest hi ih =>
    obtain ⟨hordered, hbehind⟩ := ih h
    exact ⟨hordered, fun q hq => (p.rank_le_past c rest.head?).trans (hbehind q hq)⟩
  | case3 p rest n hi =>
    rename_i ih
    obtain ⟨hordered, hbehind⟩ := ih h
    exact ⟨hordered, fun q hq => (p.rank_le_advance _ _).trans (hbehind q hq)⟩
  | case4 p c rest hi hn problem hl => cases h
  | case5 p c rest hi hn l n hl ih =>
    cases hs : scan (p.advance (c :: rest) (n + 1)) (rest.drop n) with
    | error problem =>
      rw [hs] at h
      cases h
    | ok tail =>
      rw [hs] at h
      cases h
      obtain ⟨hordered, hbehind⟩ := ih hs
      have hlt : ∀ q ∈ tail.positions, p.rank < q.rank := fun q hq =>
        (p.rank_lt_past (ne_carriageReturn hi) rest.head?).trans_le
          ((Position.rank_le_advance _ rest n).trans (hbehind q hq))
      refine ⟨List.pairwise_cons.mpr ⟨hlt, hordered⟩, List.forall_mem_cons.mpr ⟨le_rfl, ?_⟩⟩
      exact fun q hq => le_of_lt (hlt q hq)

/-- No two tokens of a text lie at one position, and none lies at the end of the text. -/
theorem nodup_positions {source : String} {stream : TokenStream}
    (h : tokenize source = .ok stream) : stream.positions.Nodup :=
  (positions_of_scan h).1.imp fun {q q'} (hlt : q.rank < q'.rank) (he : q = q') =>
    hlt.ne (congrArg Position.rank he)

end Lexer

end Safelist.Lexical
