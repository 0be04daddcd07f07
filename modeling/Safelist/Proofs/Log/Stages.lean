import Safelist.Log.Account
import Safelist.Log.Event

/-!
# Entries about stages

The stages of an extraction are reported on request only, under events whose names
begin with the names of the stages. All other entries are made in any case, and those
that are not about a single item are the ordinary ones. Two runs measure different
times, so entries are compared without them.
-/

namespace Safelist.Log

namespace Entry

/-- Whether an entry is about the making or the writing of a manifest. -/
def isStage (e : Entry) : Bool :=
  "EXTRACT_OPERATIONS_".toList.isPrefixOf e.event.toList ||
    "WRITE_MANIFEST_".toList.isPrefixOf e.event.toList

/-- Whether an entry is neither a detail nor about a stage. -/
def isOrdinary (e : Entry) : Bool := e.severity != .trace && !e.isStage

/-- An entry without the time that something took. -/
def untimed (e : Entry) : Entry :=
  { e with fields := e.fields.map fun f => if f.1 = "elapsed_ms" then (f.1, "") else f }

end Entry

namespace Event

/-- Whether an event is the beginning or the completion of a stage. -/
def isStage : Event → Bool
  | .extractBegin => true
  | .extractComplete => true
  | .writeBegin => true
  | .writeComplete => true
  | _ => false

/-- The entries of an event are about a stage when the event is. -/
@[simp] theorem isStage_entry (event : Event) (fields : List (String × String)) :
    (event.entry fields).isStage = event.isStage := by
  cases event <;> cbv

@[simp] theorem isStage_warning (event : Event) (fields : List (String × String)) :
    (event.warning fields).isStage = event.isStage := by
  cases event <;> cbv

end Event

namespace Account

variable {ε α β : Type} {P : Entry → Prop}

/-- All entries of an account have a property. -/
def Every (P : Entry → Prop) (account : Account ε α) : Prop := ∀ e ∈ account.entries, P e

theorem every_pure (a : α) : Every P (pure a : Account ε α) := List.forall_mem_nil _

theorem every_fail (e : ε) : Every P (fail e : Account ε α) := List.forall_mem_nil _

theorem every_ofExcept (outcome : Except ε α) : Every P (ofExcept outcome) := List.forall_mem_nil _

theorem every_note {e : Entry} (h : P e) : Every P (note e : Account ε Unit) :=
  List.forall_mem_singleton.mpr h

/-- What follows adds its entries, if it is done at all. -/
theorem Every.bind {first : Account ε α} {next : α → Account ε β} (h : Every P first)
    (hnext : ∀ a, Every P (next a)) : Every P (first >>= next) := by
  obtain ⟨entries, outcome⟩ := first
  cases outcome with
  | error e => exact h
  | ok a => exact List.forall_mem_append.mpr ⟨h, hnext a⟩

end Account

end Safelist.Log
