import Safelist.Machine.Simulated

/-!
# Work that leaves the files alone

Most of what a run does changes no file and prints no result: it reads files, looks
at the clock and writes to the log. Such work is still. When what comes out of it
depends on nothing but the files, it only reads; and what comes out of some work is
known beforehand.
-/

namespace Safelist

/-- The files are the same in two worlds, seen from the same directory, and so is what has been
printed. -/
structure World.Agrees (w w' : World) : Prop where
  /-- The files are the same. -/
  tree : w'.tree = w.tree
  /-- The working directory is the same. -/
  here : w'.here = w.here
  /-- The same has been printed. -/
  output : w'.output = w.output

namespace World.Agrees

theorem refl (w : World) : w.Agrees w := ⟨rfl, rfl, rfl⟩

theorem symm {w w' : World} (h : w.Agrees w') : w'.Agrees w :=
  ⟨h.tree.symm, h.here.symm, h.output.symm⟩

theorem trans {w w' w'' : World} (h : w.Agrees w') (h' : w'.Agrees w'') : w.Agrees w'' :=
  ⟨h'.tree.trans h.tree, h'.here.trans h.here, h'.output.trans h.output⟩

end World.Agrees

/-- The world once entries have been written to its log, each if its severity is high enough. -/
def World.logged (w : World) (entries : List Log.Entry) : World :=
  { w with complaints := w.complaints ++
      (entries.filter fun e => w.threshold.admits e.severity).map Complaint.entry }

@[simp] theorem World.logged_nil (w : World) : w.logged [] = w := by simp [logged]

/-- Entries can be written one after another. -/
theorem World.logged_logged (w : World) (first more : List Log.Entry) :
    (w.logged first).logged more = w.logged (first ++ more) := by
  simp [logged]

/-- Entries whose severity is high enough are all written. -/
theorem World.logged_of_admits {w : World} {entries : List Log.Entry}
    (h : ∀ e ∈ entries, w.threshold.admits e.severity) :
    w.logged entries = { w with complaints := w.complaints ++ entries.map Complaint.entry } := by
  rw [logged, List.filter_eq_self.mpr h]

namespace Simulated

variable {ε α β : Type}

/-- Work that changes neither the files nor what has been printed. -/
def Still (x : Simulated α) : Prop := ∀ w : World, w.Agrees (x w).2

/-- Still work whose result depends on nothing but the files. -/
structure Reads (x : Simulated α) : Prop where
  /-- Nothing is changed. -/
  still : Still x
  /-- The result is the same wherever the files are. -/
  result : ∀ {w w' : World}, w.Agrees w' → (x w').1 = (x w).1

/-- Still work whose result is known. -/
structure Yields (x : Simulated α) (a : α) : Prop where
  /-- Nothing is changed. -/
  still : Still x
  /-- The result is this one in every world. -/
  result : ∀ w : World, (x w).1 = a

theorem still_pure (a : α) : Still (pure a) := World.Agrees.refl

theorem Still.bind {x : Simulated α} {f : α → Simulated β} (hx : Still x) (hf : ∀ a, Still (f a)) :
    Still (x >>= f) :=
  fun w => (hx w).trans (hf _ _)

theorem reads_pure (a : α) : Reads (pure a : Simulated α) := ⟨still_pure a, fun _ => rfl⟩

/-- Work that only reads can be put together. -/
theorem Reads.bind {x : Simulated α} {f : α → Simulated β} (hx : Reads x) (hf : ∀ a, Reads (f a)) :
    Reads (x >>= f) := by
  refine ⟨hx.still.bind fun a => (hf a).still, fun {w w'} h => ?_⟩
  have hr := hx.result h
  have hw : (x w).2.Agrees (x w').2 := ((hx.still w).symm.trans h).trans (hx.still w')
  show (f (x w').1 (x w').2).1 = (f (x w).1 (x w).2).1
  rw [hr]
  exact (hf _).result hw

theorem yields_pure (a : α) : Yields (pure a) a := ⟨still_pure a, fun _ => rfl⟩

theorem Yields.reads {x : Simulated α} {a : α} (h : Yields x a) : Reads x :=
  ⟨h.still, fun _ => (h.result _).trans (h.result _).symm⟩

/-- A result may be made no use of. -/
theorem Still.then {x : Simulated α} {f : α → Simulated β} {b : β} (hx : Still x)
    (hf : ∀ a, Yields (f a) b) : Yields (x >>= f) b :=
  ⟨hx.bind fun a => (hf a).still, fun _ => (hf _).result _⟩

section Failing

variable {x : ExceptT ε Simulated α} {f : α → ExceptT ε Simulated β}
  {g : α → ExceptT ε Simulated α}

theorem Still.then_lift {x : Simulated α} {f : α → ExceptT ε Simulated β} {r : Except ε β}
    (hx : Still x) (hf : ∀ a, Yields (f a).run r) :
    Yields (liftM x >>= f : ExceptT ε Simulated β).run r := by
  rw [ExceptT.run_bind]
  exact hx.then fun a => hf a

theorem run_lift_bind (x : Simulated α) (f : α → ExceptT ε Simulated β) (w : World) :
    (liftM x >>= f : ExceptT ε Simulated β).run w = (f (x w).1).run (x w).2 := rfl

theorem run_exceptLift_bind (x : Simulated α) (f : α → ExceptT ε Simulated β) (w : World) :
    (ExceptT.lift x >>= f).run w = (f (x w).1).run (x w).2 := rfl

/-- Work goes on where other work has come out well. -/
theorem run_bind_eq (x : ExceptT ε Simulated α) (f : α → ExceptT ε Simulated β) (w : World) :
    (x >>= f).run w =
      match (x.run w).1 with
      | .ok a => (f a).run (x.run w).2
      | .error e => (.error e, (x.run w).2) := by
  rw [ExceptT.run_bind]
  show (match (x.run w).1 with | .ok a => (f a).run | .error e => pure (.error e)) (x.run w).2 = _
  cases (x.run w).1 <;> rfl

section Elimination

variable {w₀ w : World} {P : Except ε β × World → Prop}

/-- Still work that can not fail is followed by more work in a world that agrees. -/
theorem Still.lift_elim {y : Simulated α} (hy : Still y) (hw : w₀.Agrees w)
    (hmore : ∀ a w', w₀.Agrees w' → P ((f a).run w')) :
    P ((liftM y >>= f : ExceptT ε Simulated β).run w) :=
  hmore _ _ (hw.trans (hy w))

/-- Still work may be left out. -/
theorem Still.ite_lift_elim {c : Prop} [Decidable c] {y : Simulated Unit}
    {more : Unit → ExceptT ε Simulated β} (hy : Still y) (hw : w₀.Agrees w)
    (hmore : ∀ w', w₀.Agrees w' → P ((more ()).run w')) :
    P ((if c then liftM y >>= more else more ()).run w) := by
  split
  · exact hy.lift_elim hw fun _ => hmore
  · exact hmore w hw

/-- Work that only reads fails as the files say, or is followed by more work in a world that
agrees. -/
theorem Reads.bind_elim (hx : Reads x.run) (hw : w₀.Agrees w)
    (hfail : ∀ e w', (x.run w₀).1 = .error e → w₀.Agrees w' → P (.error e, w'))
    (hmore : ∀ a w', (x.run w₀).1 = .ok a → w₀.Agrees w' → P ((f a).run w')) :
    P ((x >>= f).run w) := by
  have hresult : (x.run w).1 = (x.run w₀).1 := hx.result hw
  have hagrees : w₀.Agrees (x.run w).2 := hw.trans (hx.still w)
  rw [run_bind_eq]
  cases hr : (x.run w).1 with
  | ok a => exact hmore a _ (hresult.symm.trans hr) hagrees
  | error e => exact hfail e _ (hresult.symm.trans hr) hagrees

end Elimination

/-- Work that does other work and, before it and behind it, nothing that matters. -/
def Wraps (x work : ExceptT ε Simulated α) : Prop :=
  ∀ w : World, ∃ w₁ w₂, w.Agrees w₁ ∧ (work.run w₁).2.Agrees w₂ ∧
    x.run w = ((work.run w₁).1, w₂)

/-- What follows work may hand its result on. -/
theorem wraps_hand (hg : ∀ a, Yields (g a).run (.ok a)) : Wraps (x >>= g) x := by
  intro w
  refine ⟨w, ?_⟩
  rw [run_bind_eq]
  cases (x.run w).1 with
  | ok a => exact ⟨_, .refl w, (hg a).still _, Prod.ext ((hg a).result _) rfl⟩
  | error e => exact ⟨_, .refl w, .refl _, rfl⟩

/-- Still work may come before other work. -/
theorem Still.wraps_lift {y : Simulated β} {work : ExceptT ε Simulated α} (hy : Still y)
    {h : β → ExceptT ε Simulated α} (hh : ∀ b, Wraps (h b) work) : Wraps (liftM y >>= h) work := by
  intro w
  obtain ⟨w₁, w₂, hw₁, hw₂, hrun⟩ := hh (y w).1 (y w).2
  exact ⟨w₁, w₂, (hy w).trans hw₁, hw₂, hrun⟩

/-- What comes out of work comes out of what wraps it. -/
theorem Wraps.yields {work : ExceptT ε Simulated α} {y : ExceptT ε Simulated α} (h : Wraps y work)
    {r : Except ε α} (hr : Yields work.run r) : Yields y.run r := by
  constructor
  · intro w
    obtain ⟨w₁, w₂, hw₁, hw₂, hrun⟩ := h w
    rw [hrun]
    exact (hw₁.trans (hr.still w₁)).trans hw₂
  · intro w
    obtain ⟨w₁, w₂, -, -, hrun⟩ := h w
    rw [hrun]
    exact hr.result w₁

end Failing

end Simulated

namespace Machine

open Simulated

/-- Writing to the log changes nothing else. -/
theorem reads_log (entry : Log.Entry) : Reads (log entry : Simulated Unit) := by
  refine ⟨fun w => ?_, fun _ => rfl⟩
  show w.Agrees ((if w.threshold.admits entry.severity then record entry else pure () :
    Simulated Unit) w).2
  split <;> exact ⟨rfl, rfl, rfl⟩

theorem reads_report (event : Log.Event) (fields : List (String × String)) :
    Reads (report event fields : Simulated Unit) :=
  reads_log _

/-- Telling an account is as good as its outcome. -/
theorem yields_tell {ε α : Type} (account : Log.Account ε α) :
    Yields (tell account : ExceptT ε Simulated α).run account.outcome := by
  obtain ⟨entries, outcome⟩ := account
  unfold tell
  induction entries with
  | nil => exact yields_pure outcome
  | cons entry rest ih =>
    rw [List.forM, bind_assoc]
    exact (reads_log entry).still.then_lift fun _ => ih

/-- Writing an entry to the log adds it when its severity is high enough. -/
theorem run_log (entry : Log.Entry) (w : World) :
    (log entry : Simulated Unit) w = ((), w.logged [entry]) := by
  show (if w.threshold.admits entry.severity then record entry else pure () :
    Simulated Unit) w = _
  split
  · rename_i h
    have hone : w.logged [entry] = { w with complaints := w.complaints ++ [.entry entry] } := by
      simp [World.logged, h]
    rw [hone]
    rfl
  · rename_i h
    have hnone : w.logged [entry] = w := by simp [World.logged, h]
    rw [hnone]
    rfl

/-- Telling an account writes its entries to the log, and nothing else happens. -/
theorem run_tell {ε α : Type} (account : Log.Account ε α) (w : World) :
    (tell account : ExceptT ε Simulated α).run w =
      (account.outcome, w.logged account.entries) := by
  obtain ⟨entries, outcome⟩ := account
  unfold tell
  induction entries generalizing w with
  | nil =>
    rw [World.logged_nil]
    rfl
  | cons entry rest ih =>
    rw [List.forM, bind_assoc, run_lift_bind, ih, run_log, World.logged_logged]
    rfl

theorem still_clock : Still (clock : Simulated Nat) := fun _ => ⟨rfl, rfl, rfl⟩

theorem still_setThreshold (severity : Log.Severity) :
    Still (setThreshold severity : Simulated Unit) :=
  fun _ => ⟨rfl, rfl, rfl⟩

theorem still_openScope (name : String) (fields : List (String × String)) :
    Still (openScope name fields : Simulated Log.Scope) :=
  (reads_log _).still.bind fun _ => still_clock.bind fun _ => still_pure _

theorem still_closeScope (scope : Log.Scope) (ending : Log.Ending) :
    Still (closeScope scope ending : Simulated Unit) :=
  still_clock.bind fun _ => (reads_log _).still

end Machine

end Safelist
