import Safelist.Proofs.Machine.Reporting

/-!
# Work done side by side in two worlds

Two runs stand side by side in worlds with the same files. The one on the left writes
every entry to its log, the one on the right leaves out what is not severe enough. When
they do the same work, and the left one now and then makes an entry of its own about a
detail or a stage, they come out the same and leave the same files, and their logs differ
in these entries only.
-/

namespace Safelist

/-- Where two runs stand that began side by side: the files are the same, the left one writes
every entry, and what has been written on the right is what is ordinary on the left, up to
times. -/
structure World.Beside (left₀ right₀ left right : World) : Prop where
  /-- Files and output are the same. -/
  agrees : left.Agrees right
  /-- On the left, every entry is written. -/
  admits : left.threshold = .trace
  /-- On the right, the same severities are written as at the beginning. -/
  kept : right.threshold = right₀.threshold
  /-- If the right one writes all but details, it has written the ordinary entries of the left
  one. -/
  logs : ∃ entries entries' : List Log.Entry,
    left.complaints = left₀.complaints ++ entries.map .entry ∧
    right.complaints = right₀.complaints ++ entries'.map .entry ∧
    (right₀.threshold = .info → entries'.map Log.Entry.untimed =
      (entries.filter Log.Entry.isOrdinary).map Log.Entry.untimed)

/-- An entry that is not about a stage is ordinary when it is no detail. -/
theorem Log.Entry.isOrdinary_eq_admits {e : Entry} (h : e.isStage = false) :
    e.isOrdinary = Severity.info.admits e.severity := by
  rw [isOrdinary, h]
  cases e.severity <;> rfl

namespace World.Beside

variable {left₀ right₀ left right left' right' : World}

/-- Two worlds with the same files stand side by side once the left one writes every entry. -/
theorem begin (h : left₀.Agrees right₀) :
    Beside left₀ right₀ { left₀ with threshold := .trace } right₀ where
  agrees := ⟨h.tree, h.here, h.output⟩
  admits := rfl
  kept := rfl
  logs := ⟨[], [], by simp, by simp, fun _ => rfl⟩

/-- Two worlds stay side by side whatever happens in the same way to the files of both. -/
theorem congr (h : Beside left₀ right₀ left right) (hagrees : left'.Agrees right')
    (hleft : left'.threshold = left.threshold) (hright : right'.threshold = right.threshold)
    (hlogs : left'.complaints = left.complaints) (hlogs' : right'.complaints = right.complaints) :
    Beside left₀ right₀ left' right' where
  agrees := hagrees
  admits := hleft.trans h.admits
  kept := hright.trans h.kept
  logs := by rw [hlogs, hlogs']; exact h.logs

/-- Entries may be written on both sides if those that the right one writes at most are the
ordinary ones of the left. -/
theorem logged (h : Beside left₀ right₀ left right) {more more' : List Log.Entry}
    (hmore : (more'.filter fun e => Log.Severity.info.admits e.severity).map Log.Entry.untimed =
      (more.filter Log.Entry.isOrdinary).map Log.Entry.untimed) :
    Beside left₀ right₀ (left.logged more) (right.logged more') := by
  obtain ⟨entries, entries', hl, hr, hord⟩ := h.logs
  have hall : ∀ e ∈ more, left.threshold.admits e.severity = true := by
    intro e _
    rw [h.admits]
    exact decide_eq_true (Nat.zero_le _)
  refine ⟨((left.agrees_logged more).symm.trans h.agrees).trans (right.agrees_logged more'),
    h.admits, h.kept, entries ++ more,
    entries' ++ more'.filter fun e => right.threshold.admits e.severity, ?_, ?_, fun hinfo => ?_⟩
  · rw [World.logged_of_admits hall]
    simp [hl]
  · simp [World.logged, hr]
  · rw [h.kept, hinfo, List.map_append, hord hinfo, hmore, List.filter_append, List.map_append]

/-- Entries that are not about stages may be written on both sides. -/
theorem logged_both (h : Beside left₀ right₀ left right) {more : List Log.Entry}
    (hmore : ∀ e ∈ more, e.isStage = false) :
    Beside left₀ right₀ (left.logged more) (right.logged more) := by
  refine h.logged (congrArg (List.map _) (List.filter_congr fun e he => ?_))
  exact (Log.Entry.isOrdinary_eq_admits (hmore e he)).symm

/-- An entry may be written with different times on the two sides. -/
theorem logged_untimed (h : Beside left₀ right₀ left right) {e e' : Log.Entry}
    (hstage : e.isStage = false) (hsame : e.untimed = e'.untimed) :
    Beside left₀ right₀ (left.logged [e]) (right.logged [e']) := by
  have hseverity : e.severity = e'.severity := (Log.Entry.mk.inj hsame).1
  have hadmits : e.isOrdinary = Log.Severity.info.admits e'.severity := by
    rw [Log.Entry.isOrdinary_eq_admits hstage, hseverity]
  refine h.logged ?_
  rw [List.filter_cons, List.filter_cons, hadmits]
  split
  · exact congrArg ([·]) hsame.symm
  · rfl

/-- Entries that are not ordinary may be written on the left alone. -/
theorem logged_left (h : Beside left₀ right₀ left right) {more : List Log.Entry}
    (hmore : ∀ e ∈ more, e.isOrdinary = false) :
    Beside left₀ right₀ (left.logged more) right := by
  have hnone : more.filter Log.Entry.isOrdinary = [] :=
    List.filter_eq_nil_iff.mpr fun e he => by simp [hmore e he]
  have hlogged : Beside left₀ right₀ (left.logged more) (right.logged []) :=
    h.logged (by rw [hnone]; rfl)
  rwa [World.logged_nil] at hlogged

/-- The same change may be made to the files on both sides. -/
theorem withTree (h : Beside left₀ right₀ left right) {ε : Type} (change : Except ε Files.Tree) :
    (left.withTree change).1 = (right.withTree change).1 ∧
      Beside left₀ right₀ (left.withTree change).2 (right.withTree change).2 := by
  cases change with
  | ok tree => exact ⟨rfl, h.congr ⟨rfl, h.agrees.here, h.agrees.output⟩ rfl rfl rfl rfl⟩
  | error e => exact ⟨rfl, h⟩

end World.Beside

namespace Simulated

open World (Beside)

variable {ε α β γ δ : Type} {left₀ right₀ : World}

/-- How work on two sides ends that keeps worlds side by side: with related results. -/
def EndBeside (left₀ right₀ : World) (q : α → β → Prop) (left : α × World) (right : β × World) :
    Prop :=
  q left.1 right.1 ∧ Beside left₀ right₀ left.2 right.2

/-- Work on two sides that keeps worlds side by side and has related results. -/
def SideBySide (left₀ right₀ : World) (q : α → β → Prop) (x : Simulated α) (y : Simulated β) :
    Prop :=
  ∀ left right, Beside left₀ right₀ left right → EndBeside left₀ right₀ q (x left) (y right)

/-- Work on the left that keeps worlds side by side while nothing is done on the right. -/
def Aside (left₀ right₀ : World) (x : Simulated α) : Prop :=
  ∀ left right, Beside left₀ right₀ left right → Beside left₀ right₀ (x left).2 right

variable {q : α → β → Prop} {r : γ → δ → Prop} {x : Simulated α} {y : Simulated β}
  {f : α → Simulated γ} {g : β → Simulated δ}

theorem sideBySide_pure {a : α} {b : β} (h : q a b) :
    SideBySide left₀ right₀ q (pure a) (pure b) :=
  fun _ _ hb => ⟨h, hb⟩

/-- Work in a row on both sides. -/
theorem SideBySide.bind (h : SideBySide left₀ right₀ q x y)
    (hfg : ∀ a b, q a b → SideBySide left₀ right₀ r (f a) (g b)) :
    SideBySide left₀ right₀ r (x >>= f) (y >>= g) :=
  fun _ _ hb => hfg _ _ (h _ _ hb).1 _ _ (h _ _ hb).2

/-- Work on the left alone may come before. -/
theorem Aside.bind {y : Simulated δ} (h : Aside left₀ right₀ x)
    (hf : ∀ a, SideBySide left₀ right₀ r (f a) y) : SideBySide left₀ right₀ r (x >>= f) y :=
  fun _ _ hb => hf _ _ _ (h _ _ hb)

/-- Work that reports is done on both sides in the same way. -/
theorem Reports.sideBySide (h : Reports x) : SideBySide left₀ right₀ Eq x x := by
  intro left right hb
  obtain ⟨entries, hstage, hrun⟩ := h left
  rw [hrun right hb.agrees, hrun left (.refl left)]
  exact ⟨rfl, hb.logged_both hstage⟩

section Failing

variable {x : ExceptT ε Simulated α} {y : ExceptT ε Simulated α}
  {f g : α → ExceptT ε Simulated β}

/-- Work that may fail can be followed by other work on both sides. -/
theorem EndBeside.bind_except {left right : World}
    (h : EndBeside left₀ right₀ Eq (x.run left) (y.run right))
    (hfg : ∀ a, SideBySide left₀ right₀ Eq (f a).run (g a).run) :
    EndBeside left₀ right₀ Eq ((x >>= f).run left) ((y >>= g).run right) := by
  obtain ⟨hresult, hbeside⟩ := h
  rw [run_bind_eq, run_bind_eq, ← hresult]
  cases (x.run left).1 with
  | ok a => exact hfg a _ _ hbeside
  | error e => exact ⟨rfl, hbeside⟩

theorem SideBySide.bind_except (h : SideBySide left₀ right₀ Eq x.run y.run)
    (hfg : ∀ a, SideBySide left₀ right₀ Eq (f a).run (g a).run) :
    SideBySide left₀ right₀ Eq (x >>= f).run (y >>= g).run :=
  fun _ _ hb => (h _ _ hb).bind_except hfg

/-- Work that can not fail may come before on both sides. -/
theorem SideBySide.lift_bind {u : Simulated γ} {v : Simulated δ} {f : γ → ExceptT ε Simulated β}
    {g : δ → ExceptT ε Simulated β} (h : SideBySide left₀ right₀ r u v)
    (hfg : ∀ a b, r a b → SideBySide left₀ right₀ Eq (f a).run (g b).run) :
    SideBySide left₀ right₀ Eq (liftM u >>= f : ExceptT ε Simulated β).run
      (liftM v >>= g : ExceptT ε Simulated β).run :=
  fun _ _ hb => hfg _ _ (h _ _ hb).1 _ _ (h _ _ hb).2

theorem SideBySide.lift {u v : Simulated γ} (h : SideBySide left₀ right₀ Eq u v) :
    SideBySide left₀ right₀ Eq (liftM u : ExceptT ε Simulated γ).run
      (liftM v : ExceptT ε Simulated γ).run :=
  h.bind fun _ _ hsame => sideBySide_pure (congrArg Except.ok hsame)

/-- Work on the left alone that can not fail may come before. -/
theorem Aside.lift_bind {u : Simulated γ} {f : γ → ExceptT ε Simulated β}
    {y : ExceptT ε Simulated β} (h : Aside left₀ right₀ u)
    (hf : ∀ a, SideBySide left₀ right₀ Eq (f a).run y.run) :
    SideBySide left₀ right₀ Eq (liftM u >>= f : ExceptT ε Simulated β).run y.run :=
  fun _ _ hb => hf _ _ _ (h _ _ hb)

/-- Two runs of the same work end side by side where the left one writes every entry first. -/
theorem SideBySide.begin {x y : ExceptT ε Simulated α} (hagrees : left₀.Agrees right₀)
    (h : SideBySide left₀ right₀ Eq x.run y.run) :
    EndBeside left₀ right₀ Eq
      ((liftM (Machine.setThreshold .trace : Simulated Unit) >>= fun _ => x :
        ExceptT ε Simulated α).run left₀) (y.run right₀) :=
  h _ _ (.begin hagrees)

end Failing

end Simulated

namespace Machine

open Simulated

open World (Beside)

variable {left₀ right₀ : World}

/-- The clocks may differ. -/
theorem sideBySide_clock :
    SideBySide left₀ right₀ (fun _ _ => True) (clock : Simulated Nat) (clock : Simulated Nat) :=
  fun _ _ h => ⟨trivial, h.congr ⟨h.agrees.tree, h.agrees.here, h.agrees.output⟩ rfl rfl rfl rfl⟩

theorem aside_clock : Aside left₀ right₀ (clock : Simulated Nat) :=
  fun _ _ h => h.congr ⟨h.agrees.tree, h.agrees.here, h.agrees.output⟩ rfl rfl rfl rfl

/-- A stage may be reported on the left alone. -/
theorem aside_report {event : Log.Event} (h : event.isStage = true)
    (fields : List (String × String)) :
    Aside left₀ right₀ (report event fields : Simulated Unit) := by
  intro left right hb
  have hordinary : (event.entry fields).isOrdinary = false := by
    rw [Log.Entry.isOrdinary, Log.Event.isStage_entry, h, Bool.not_true, Bool.and_false]
  rw [report, run_log]
  exact hb.logged_left (List.forall_mem_singleton.mpr hordinary)

/-- Details may be told on the left alone. -/
theorem sideBySide_tell {ε α : Type} {account : Log.Account ε α}
    (h : account.Every (·.isOrdinary = false)) :
    SideBySide left₀ right₀ Eq (tell account : ExceptT ε Simulated α).run
      (ExceptT.mk (pure account.outcome) : ExceptT ε Simulated α).run := by
  intro left right hb
  rw [run_tell]
  exact ⟨rfl, hb.logged_left h⟩

theorem sideBySide_writeText (path text : String) :
    SideBySide left₀ right₀ Eq (writeText path text : Simulated _) (writeText path text) := by
  intro left right hb
  have hchange := hb.withTree
    ((left.tree.create left.here path text.toUTF8).mapError (WriteStep.create, ·))
  have hagrees := hb.agrees
  simp only [Machine.writeText, hagrees.tree, hagrees.here]
  exact hchange

theorem sideBySide_move (source target : String) :
    SideBySide left₀ right₀ Eq (move source target : Simulated _) (move source target) := by
  intro left right hb
  have hchange := hb.withTree (left.tree.move left.here source target)
  have hagrees := hb.agrees
  simp only [Machine.move, hagrees.tree, hagrees.here]
  exact hchange

theorem sideBySide_remove (path : String) :
    SideBySide left₀ right₀ Eq (remove path : Simulated Unit) (remove path) := by
  intro left right hb
  have hagrees := hb.agrees
  refine ⟨rfl, hb.congr ⟨?_, hagrees.here, hagrees.output⟩ rfl rfl rfl rfl⟩
  show (right.tree.remove right.here path).toOption.getD right.tree =
    (left.tree.remove left.here path).toOption.getD left.tree
  rw [hagrees.tree, hagrees.here]

theorem sideBySide_print (text : String) :
    SideBySide left₀ right₀ Eq (print text : Simulated Unit) (print text) := by
  intro left right hb
  have hagrees := hb.agrees
  exact ⟨rfl, hb.congr ⟨hagrees.tree, hagrees.here, congrArg (· ++ text) hagrees.output⟩
    rfl rfl rfl rfl⟩

/-- A scope of a name and some fields, whenever it began. -/
def IsScope (name : String) (fields : List (String × String)) (scope : Log.Scope) : Prop :=
  ∃ begun, scope = ⟨name, fields, begun⟩

variable {name : String} {fields : List (String × String)}

/-- A scope is opened on both sides, at different times. -/
theorem sideBySide_openScope (h : (Log.Scope.opening ⟨name, fields, 0⟩).isStage = false) :
    SideBySide left₀ right₀ (fun s s' => IsScope name fields s ∧ IsScope name fields s')
      (openScope name fields) (openScope name fields) :=
  (reports_log h).sideBySide.bind fun _ _ _ => sideBySide_clock.bind fun _ _ _ =>
    sideBySide_pure ⟨⟨_, rfl⟩, ⟨_, rfl⟩⟩

/-- A scope is closed on both sides, at different times. -/
theorem sideBySide_closeScope {s s' : Log.Scope} (hs : IsScope name fields s)
    (hs' : IsScope name fields s') {ending : Log.Ending}
    (hstage : ∀ begun now, (Log.Scope.closing ⟨name, fields, begun⟩ now ending).isStage = false) :
    SideBySide left₀ right₀ Eq (closeScope s ending : Simulated Unit) (closeScope s' ending) := by
  obtain ⟨begun, rfl⟩ := hs
  obtain ⟨begun', rfl⟩ := hs'
  refine sideBySide_clock.bind fun now now' _ => ?_
  intro left right hb
  rw [run_log, run_log]
  refine ⟨rfl, hb.logged_untimed (hstage begun now) ?_⟩
  cases ending <;> simp [Log.Scope.closing, Log.Entry.untimed]

end Machine

end Safelist
