import Safelist.Lexical.Lexer

/-!
# One token at a time

Reading a text is a row of steps. A step passes over ignored characters and comments
and reads one lexeme behind them, or finds that the text has ended. The tokens of a
text are those of its steps, and the first step that fails is where reading fails.
-/

namespace Safelist.Lexical

/-- Going on from where some characters have led is going past all of them. -/
theorem Position.advance_advance (p : Position) (cs : List Char) (m n : Nat) :
    (p.advance cs m).advance (cs.drop m) n = p.advance cs (m + n) := by
  induction m generalizing p cs with
  | zero => simp
  | succ m ih =>
    rw [Nat.add_right_comm]
    cases cs with
    | nil => cases n <;> rfl
    | cons c rest => exact ih _ _

/-- Where no line ends, the column alone goes on. -/
theorem Position.advance_of_line (p : Position) {line : List Char}
    (h : ∀ c ∈ line, Lexer.isLineEnd c = false) (rest : List Char) :
    p.advance (line ++ rest) line.length = ⟨p.line, p.column + line.length⟩ := by
  induction line generalizing p with
  | nil => simp
  | cons c line ih =>
    have hc : c ≠ '\n' ∧ c ≠ '\r' := by
      simpa [Lexer.isLineEnd] using h c List.mem_cons_self
    have hpast : ∀ next, p.past c next = ⟨p.line, p.column + 1⟩ := fun next => by
      simp [past, hc.1, hc.2]
    rw [List.cons_append, List.length_cons, advance_cons, hpast,
      ih _ fun d hd => h d (List.mem_cons_of_mem _ hd), Nat.add_assoc, Nat.add_comm 1]

namespace Lexer

/-- What is left of a text behind ignored characters and comments, and its position. -/
def pass (p : Position) (cs : List Char) : Position × List Char :=
  match cs with
  | [] => (p, [])
  | c :: rest =>
    if isIgnored c then pass (p.past c rest.head?) rest
    else if c = '#' then
      let n := commentLength rest
      pass (p.advance (c :: rest) (n + 1)) (rest.drop n)
    else (p, c :: rest)
termination_by cs.length
decreasing_by all_goals simp only [List.length_cons, List.length_drop]; omega

/-- What a step comes to. -/
inductive Step where
  /-- The text has ended. -/
  | stop (position : Position)
  /-- A token was read; behind it the rest of the text begins at a position. -/
  | token (token : Token) (behind : Position) (rest : List Char)

/-- The next token of a text that begins at a position. -/
def step (p : Position) (cs : List Char) : Except ReadError Step :=
  match pass p cs with
  | (p, []) => .ok (.stop p)
  | (p, c :: rest) =>
    match lexeme c rest with
    | .error problem => .error (.malformed p problem)
    | .ok (found, n) =>
      .ok (.token ⟨found, p⟩ (p.advance (c :: rest) (n + 1)) (rest.drop n))

/-- Where a lexeme begins, nothing is passed over. -/
theorem pass_cons {c : Char} (hi : isIgnored c = false) (hn : c ≠ '#') (p : Position)
    (rest : List Char) : pass p (c :: rest) = (p, c :: rest) := by
  rw [pass]
  simp [hi, hn]

/-- A step where a lexeme begins reads that lexeme. -/
theorem step_cons {c : Char} (hi : isIgnored c = false) (hn : c ≠ '#') (p : Position)
    (rest : List Char) : step p (c :: rest) =
      match lexeme c rest with
      | .error problem => .error (.malformed p problem)
      | .ok (found, n) =>
        .ok (.token ⟨found, p⟩ (p.advance (c :: rest) (n + 1)) (rest.drop n)) := by
  rw [step, pass_cons hi hn]

/-- Reading a text is taking a step and reading what is behind it. -/
theorem scan_eq_step (p : Position) (cs : List Char) : scan p cs =
    match step p cs with
    | .error e => .error e
    | .ok (.stop q) => .ok ⟨[], q⟩
    | .ok (.token token q rest) =>
      (scan q rest).map fun stream => { stream with tokens := token :: stream.tokens } := by
  fun_induction pass p cs with
  | case1 p =>
    rw [scan, step, pass]
  | case2 p c rest hi ih =>
    have hstep : step p (c :: rest) = step (p.past c rest.head?) rest := by
      rw [step, pass, if_pos hi, ← step]
    rw [scan, if_pos hi, hstep]
    exact ih
  | case3 p rest n hi ih =>
    have hstep : step p ('#' :: rest) = step (p.advance ('#' :: rest) (n + 1)) (rest.drop n) := by
      rw [step, pass, if_neg hi, if_pos rfl, ← step]
    rw [scan, if_neg hi, if_pos rfl, hstep]
    exact ih
  | case4 p c rest hi hn =>
    rw [step_cons (by simpa using hi) hn, scan, if_neg hi, if_neg hn]
    cases lexeme c rest with
    | error problem => rfl
    | ok found => rfl

end Lexer

end Safelist.Lexical
