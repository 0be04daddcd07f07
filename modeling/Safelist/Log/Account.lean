import Safelist.Log.Entry

/-!
# Accounts

An account is the outcome of some work together with the entries made on the
way. Work that follows adds its entries after those before it; a failure ends
the work and keeps the entries made so far.
-/

namespace Safelist.Log

/-- An outcome with the entries made on the way to it. -/
structure Account (ε α : Type) where
  /-- The entries in the order in which they were made. -/
  entries : List Entry
  /-- What came out. -/
  outcome : Except ε α

namespace Account

variable {ε α β : Type}

/-- An outcome without entries. -/
def ofExcept (outcome : Except ε α) : Account ε α := ⟨[], outcome⟩

/-- One entry. -/
def note (e : Entry) : Account ε Unit := ⟨[e], .ok ()⟩

/-- Failure. -/
def fail (e : ε) : Account ε α := ⟨[], .error e⟩

/-- Work that continues on the outcome of other work. -/
def andThen (first : Account ε α) (next : α → Account ε β) : Account ε β :=
  match first.outcome with
  | .ok a => ⟨first.entries ++ (next a).entries, (next a).outcome⟩
  | .error e => ⟨first.entries, .error e⟩

instance : Monad (Account ε) where
  pure a := ⟨[], .ok a⟩
  bind := andThen

/-- A value has no entries. -/
@[simp] theorem entries_pure (a : α) : (pure a : Account ε α).entries = [] := rfl

/-- A value is its own outcome. -/
@[simp] theorem outcome_pure (a : α) : (pure a : Account ε α).outcome = .ok a := rfl

/-- The outcome of work in two parts is that of the parts. -/
theorem outcome_bind (first : Account ε α) (next : α → Account ε β) :
    (first >>= next).outcome = first.outcome.bind fun a => (next a).outcome := by
  obtain ⟨_, outcome⟩ := first
  cases outcome <;> rfl

end Account

end Safelist.Log
