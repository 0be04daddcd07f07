import Safelist.Proofs.Log.Stages
import Safelist.Proofs.Machine.Work

/-!
# Work that reads files and reports on it

When the files settle what comes out of some work and which entries it makes, the work
reports: it reads files and writes to the log, and does nothing else. None of these
entries are about stages, which are left to those who ask for them.
-/

namespace Safelist

/-- Writing to the log changes nothing else. -/
theorem World.agrees_logged (w : World) (entries : List Log.Entry) : w.Agrees (w.logged entries) :=
  ⟨rfl, rfl, rfl⟩

namespace Simulated

variable {ε α β : Type}

/-- Work that writes certain entries to the log and does nothing else; the entries and the result
are the same wherever the files are, and no entry is about a stage. -/
def Reports (x : Simulated α) : Prop :=
  ∀ w : World, ∃ entries : List Log.Entry, (∀ e ∈ entries, e.isStage = false) ∧
    ∀ w', w.Agrees w' → x w' = ((x w).1, w'.logged entries)

/-- Work that reports only reads, as far as files and results go. -/
theorem Reports.reads {x : Simulated α} (h : Reports x) : Reads x := by
  constructor
  · intro w
    obtain ⟨entries, -, hrun⟩ := h w
    rw [hrun w (.refl w)]
    exact w.agrees_logged entries
  · intro w w' hw
    obtain ⟨entries, -, hrun⟩ := h w
    rw [hrun w' hw]

/-- Work that makes no entries. -/
theorem reports_of_eq {x : Simulated α} {f : World → α} (hx : ∀ w, x w = (f w, w))
    (hf : ∀ w w', w.Agrees w' → f w' = f w) : Reports x := by
  refine fun w => ⟨[], List.forall_mem_nil _, fun w' hw => ?_⟩
  rw [hx, hx, hf w w' hw, World.logged_nil]

theorem reports_pure (a : α) : Reports (pure a : Simulated α) :=
  reports_of_eq (fun _ => rfl) fun _ _ _ => rfl

/-- Reports can be made one after another. -/
theorem Reports.bind {x : Simulated α} {f : α → Simulated β} (hx : Reports x)
    (hf : ∀ a, Reports (f a)) : Reports (x >>= f) := by
  intro w
  obtain ⟨first, hfirst, hrun⟩ := hx w
  obtain ⟨more, hmore, hrun'⟩ := hf (x w).1 (x w).2
  refine ⟨first ++ more, List.forall_mem_append.mpr ⟨hfirst, hmore⟩, fun w' hw => ?_⟩
  have hagrees : (x w).2.Agrees (w'.logged first) := by
    rw [hrun w (.refl w)]
    exact ((w.agrees_logged first).symm.trans hw).trans (w'.agrees_logged first)
  show f (x w').1 (x w').2 = ((f (x w).1 (x w).2).1, _)
  rw [hrun w' hw, hrun' _ hagrees, World.logged_logged]

section Failing

variable {x : ExceptT ε Simulated α} {f : α → ExceptT ε Simulated β}

theorem Reports.bind_except (hx : Reports x.run) (hf : ∀ a, Reports (f a).run) :
    Reports (x >>= f).run := by
  rw [ExceptT.run_bind]
  refine hx.bind fun r => ?_
  cases r with
  | ok a => exact hf a
  | error e => exact reports_pure _

theorem reports_throw (e : ε) : Reports (throw e : ExceptT ε Simulated α).run := reports_pure _

theorem Reports.lift {x : Simulated α} (hx : Reports x) :
    Reports (liftM x : ExceptT ε Simulated α).run :=
  hx.bind fun _ => reports_pure _

end Failing

end Simulated

namespace Machine

open Simulated

theorem reports_log {entry : Log.Entry} (h : entry.isStage = false) :
    Reports (log entry : Simulated Unit) := by
  refine fun w => ⟨[entry], List.forall_mem_singleton.mpr h, fun w' _ => ?_⟩
  rw [run_log, run_log]

theorem reports_report {event : Log.Event} (h : event.isStage = false)
    (fields : List (String × String)) : Reports (report event fields : Simulated Unit) :=
  reports_log ((event.isStage_entry fields).trans h)

theorem reports_readText (path : String) : Reports (readText path : Simulated _) :=
  reports_of_eq (fun _ => rfl) fun w w' h => by rw [h.tree, h.here]

theorem reports_kindOf (path : String) : Reports (kindOf path : Simulated _) :=
  reports_of_eq (fun _ => rfl) fun w w' h => by rw [World.kindOf, World.kindOf, h.tree, h.here]

theorem reports_list (directory : String) : Reports (list directory : Simulated _) :=
  reports_of_eq (fun _ => rfl) fun w w' h => by rw [h.tree, h.here]

/-- Telling an account reports its entries. -/
theorem reports_tell {account : Log.Account ε α} (h : account.Every (·.isStage = false)) :
    Reports (tell account : ExceptT ε Simulated α).run := by
  refine fun w => ⟨account.entries, h, fun w' _ => ?_⟩
  rw [run_tell, run_tell]

end Machine

end Safelist
