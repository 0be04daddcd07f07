import Safelist.Proofs.Lexical.Offsets

/-!
# Reading tokens uses up the text

A step that reads a token leaves a shorter text behind. A loop that takes steps until the
text has ended can therefore be written down without saying why it ends: it is a least fixed
point, and it has a result for every text.
-/

namespace Safelist.Lexical

namespace Lexer

/-- A step stays in its text. A token uses up characters of it, one at least; the end is found
behind all of them; and an error lies before one of them. -/
def StaysIn (p : Position) (cs : List Char) : Except ReadError Step → Prop
  | .ok (.token _ q rest) =>
    ∃ n, 0 < n ∧ n ≤ cs.length ∧ rest = cs.drop n ∧ q = p.advance cs n
  | .ok (.stop q) => q = p.advance cs cs.length
  | .error e => ∃ n, n < cs.length ∧ e.position = p.advance cs n

/-- Every step stays in its text. -/
theorem step_staysIn (p : Position) (cs : List Char) : StaysIn p cs (step p cs) := by
  obtain ⟨gap, behind, rfl, hpass, -, -⟩ := pass_eq p cs
  rw [step, hpass]
  cases behind with
  | nil => rw [List.append_nil]; rfl
  | cons c rest =>
    have hlength : (gap ++ c :: rest).length = gap.length + (rest.length + 1) := by
      rw [List.length_append, List.length_cons]
    dsimp only
    cases hl : lexeme c rest with
    | error problem => exact ⟨gap.length, by omega, rfl⟩
    | ok found =>
      obtain ⟨spelling, hbegins, hspelling, -⟩ := written_of_lexeme hl
      have hbound := hbegins.length_le
      rw [List.length_cons] at hbound
      have hdrop : (gap ++ c :: rest).drop gap.length = c :: rest := List.drop_left
      refine ⟨gap.length + (found.2 + 1), by omega, by omega, ?_, ?_⟩
      · rw [← List.drop_drop, hdrop]
        rfl
      · have hbehind := p.advance_advance (gap ++ c :: rest) gap.length (found.2 + 1)
        rwa [hdrop] at hbehind

end Lexer

namespace TokenStream

open Lexer

/-- Take steps over a text until it has ended, behind the tokens read before. -/
def extend (read : TokenStream) (cs : List Char) : Option (Except ReadError TokenStream) :=
  match step read.stop cs with
  | .error e => some (.error e)
  | .ok (.stop q) => some (.ok { read with stop := q })
  | .ok (.token token q rest) => (TokenStream.mk (read.tokens ++ [token]) q) |>.extend rest
partial_fixpoint

/-- The steps come to an end, with the tokens of the text. -/
theorem extend_eq_scan (read : TokenStream) (cs : List Char) :
    read.extend cs = some ((scan read.stop cs).map fun stream =>
      { stream with tokens := read.tokens ++ stream.tokens }) := by
  induction hk : cs.length using Nat.strong_induction_on generalizing read cs with
  | _ k ih =>
    have hstep := step_staysIn read.stop cs
    rw [extend, scan_eq_step]
    cases hs : step read.stop cs with
    | error e => rfl
    | ok found =>
      cases found with
      | stop q => simp [Except.map]
      | token token q rest =>
        rw [hs] at hstep
        obtain ⟨n, hpos, hle, rfl, -⟩ := hstep
        -- at least one character is used up, so what is left is shorter
        have hshorter : (cs.drop n).length < k := by
          rw [List.length_drop]
          omega
        dsimp only
        rw [ih _ hshorter _ _ rfl]
        cases scan q (cs.drop n) <;> simp [Except.map]

/-- All of a source is used up. -/
theorem extend_eq_tokenize (source : String) :
    (TokenStream.mk [] .start).extend source.toList = some (tokenize source) := by
  rw [extend_eq_scan, ← tokenize]
  cases tokenize source <;> rfl

end TokenStream

end Safelist.Lexical
