/-!
# Outcomes of work in parts

Work in parts comes out well when each part does, and a refusal comes out well when
there is nothing to refuse.
-/

namespace Safelist

variable {ε α β : Type} {e : ε} {b : β}

theorem bind_eq_ok_iff {x : Except ε α} {f : α → Except ε β} :
    (x >>= f) = .ok b ↔ ∃ a, x = .ok a ∧ f a = .ok b := by
  cases x <;> simp [bind, Except.bind]

theorem bind_eq_error_iff {x : Except ε α} {f : α → Except ε β} :
    (x >>= f) = .error e ↔ x = .error e ∨ ∃ a, x = .ok a ∧ f a = .error e := by
  cases x <;> simp [bind, Except.bind]

theorem mapError_eq_error_iff {ε' : Type} {f : ε → ε'} {x : Except ε α} {e' : ε'} :
    x.mapError f = .error e' ↔ ∃ e, x = .error e ∧ f e = e' := by
  constructor
  · intro h
    cases x with
    | ok a => cases h
    | error e => exact ⟨e, rfl, Except.error.inj h⟩
  · rintro ⟨e, rfl, rfl⟩
    rfl

/-- Two checks in a row pass when both do. -/
theorem check_bind_eq_ok_iff {x : Except ε Unit} {f : Unit → Except ε β} :
    (x >>= f) = .ok b ↔ x = .ok () ∧ f () = .ok b := by
  cases x <;> simp [bind, Except.bind]

/-- Two checks in a row refuse when the first does, or the second after the first has passed. -/
theorem check_bind_eq_error_iff {x : Except ε Unit} {f : Unit → Except ε β} :
    (x >>= f) = .error e ↔ x = .error e ∨ x = .ok () ∧ f () = .error e := by
  cases x <;> simp [bind, Except.bind]

/-- What follows a refusal is done when there is nothing to refuse. -/
theorem refuse_bind_eq_ok_iff {c : Prop} [Decidable c] {f : Unit → Except ε β} :
    (if c then throw e >>= f else f ()) = .ok b ↔ ¬c ∧ f () = .ok b := by
  split <;> simp_all [throw, throwThe, MonadExceptOf.throw, bind, Except.bind]

/-- A refusal in place of work. -/
theorem refuse_eq_ok_iff {c : Prop} [Decidable c] {x : Except ε β} :
    (if c then throw e else x) = .ok b ↔ ¬c ∧ x = .ok b := by
  split <;> simp_all [throw, throwThe, MonadExceptOf.throw]

end Safelist
