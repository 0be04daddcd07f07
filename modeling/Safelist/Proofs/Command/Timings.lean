import Safelist.Proofs.Command.Plan
import Safelist.Proofs.Machine.SideBySide

/-!
# Timings are told to the log alone

Whether a run is asked for timings or not, it comes out the same, prints the same and
leaves the same files. With timings the log has more entries, about details and stages,
and all others are those of a run without timings, up to the times they hold.
-/

namespace Safelist

open Simulated

variable {left₀ right₀ : World}

namespace Manifest

/-- A stage is reported on the left and done without a report on the right. -/
theorem sideBySide_stage {α : Type} {begins completes : Log.Event} (hb : begins.isStage = true)
    (hc : completes.isStage = true) {x y : ExceptT Failure Simulated α}
    (h : SideBySide left₀ right₀ Eq x.run y.run) :
    SideBySide left₀ right₀ Eq (stage true begins completes x).run
      (stage false begins completes y).run := by
  unfold stage
  refine (Machine.aside_report hb _).lift_bind fun _ => ?_
  refine Machine.sideBySide_clock.lift_bind fun begun _ _ => ?_
  refine h.bind_except fun result => ?_
  refine Machine.aside_clock.lift_bind fun now => ?_
  exact (Machine.aside_report hc _).lift_bind fun _ => sideBySide_pure rfl

/-- The entries about single records are details. -/
theorem Recipe.every_manifest (recipe : Recipe) (set : OperationSet) :
    (recipe.manifest set).Every (·.isOrdinary = false) := by
  have hdetail : ∀ fields, (Log.Event.operationProcessed.entry fields).isOrdinary = false :=
    fun _ => rfl
  have hrecords : ∀ entries, (recipe.records entries).Every (·.isOrdinary = false) := by
    intro entries
    induction entries with
    | nil => exact Log.Account.every_pure _
    | cons e rest ih =>
      refine (Log.Account.every_ofExcept _).bind fun first => ?_
      refine (Log.Account.every_note (hdetail _)).bind fun _ => ?_
      exact ih.bind fun _ => Log.Account.every_pure _
  exact (hrecords set.entries).bind fun _ => Log.Account.every_pure _

/-- The manifest of a set is the same with and without reports. -/
theorem sideBySide_build (recipe : Recipe) (set : OperationSet) :
    SideBySide left₀ right₀ Eq (build recipe true set).run (build recipe false set).run :=
  sideBySide_stage rfl rfl (Machine.sideBySide_tell (recipe.every_manifest set))

theorem sideBySide_replaceFile (target text : String) :
    SideBySide left₀ right₀ Eq (replaceFile target text : ExceptT Failure Simulated Unit).run
      (replaceFile target text).run := by
  unfold replaceFile
  split
  · exact sideBySide_pure rfl
  · rename_i temporary _
    refine (Machine.sideBySide_writeText temporary text).lift_bind ?_
    rintro written _ rfl
    cases written with
    | error refusal =>
      exact (Machine.sideBySide_remove temporary).lift_bind fun _ _ _ => sideBySide_pure rfl
    | ok _ =>
      refine (Machine.sideBySide_move temporary target).lift_bind ?_
      rintro moved _ rfl
      cases moved with
      | error fault =>
        exact (Machine.sideBySide_remove temporary).lift_bind fun _ _ _ => sideBySide_pure rfl
      | ok _ => exact sideBySide_pure rfl

/-- A manifest is made and written in the same way with and without reports. -/
theorem sideBySide_extract (set : OperationSet) (output : String) :
    SideBySide left₀ right₀ Eq (extract true set output : ExceptT Failure Simulated Manifest).run
      (extract false set output).run := by
  refine (sideBySide_build .standard set).bind_except fun manifest => ?_
  refine (sideBySide_stage rfl rfl (sideBySide_replaceFile output manifest.write)).bind_except
    fun _ => ?_
  exact sideBySide_pure rfl

end Manifest

namespace Command

theorem SideBySide.failingAs {ε α : Type} (f : ε → Failure) {x y : ExceptT ε Simulated α}
    (h : SideBySide left₀ right₀ Eq x.run y.run) :
    SideBySide left₀ right₀ Eq (failingAs f x).run (failingAs f y).run := by
  refine h.bind ?_
  rintro result _ rfl
  exact sideBySide_pure rfl

/-- The arguments of a run, with timings asked for or not. -/
def Arguments.withTimings (a : Arguments) (timings : Bool) : Arguments := { a with timings }

theorem sideBySide_extractClient (s : Client.Settings) (a : Arguments) :
    SideBySide left₀ right₀ Eq
      (extractClient s (a.withTimings true) : ExceptT Failure Simulated Manifest).run
      (extractClient s (a.withTimings false)).run := by
  refine (SideBySide.failingAs .project (Client.Project.reports_load s).sideBySide).bind_except
    fun p => ?_
  refine (SideBySide.failingAs .project
    (Machine.reports_tell (p.every_operationSet s)).sideBySide).bind_except fun set => ?_
  exact SideBySide.failingAs .extraction (Manifest.sideBySide_extract set a.output)

/-- No entry about a whole run is about a stage. -/
theorem isStage_opening (fields : List (String × String)) :
    (Log.Scope.opening ⟨scopeName, fields, 0⟩).isStage = false := by
  simp [Log.Entry.isStage, Log.Scope.opening, scopeName, List.isPrefixOf]

theorem isStage_closing (fields : List (String × String)) (begun now : Nat)
    (ending : Log.Ending) : (Log.Scope.closing ⟨scopeName, fields, begun⟩ now ending).isStage =
      false := by
  cases ending <;> simp [Log.Entry.isStage, Log.Scope.closing, scopeName, List.isPrefixOf]

/-- A run ends in the same way with and without timings, and what it comes to is reported in the
same way, up to the time it took. -/
theorem sideBySide_extract (a : Arguments) (h : left₀.Agrees right₀) :
    EndBeside left₀ right₀ Eq
      ((extract (a.withTimings true) : ExceptT Failure Simulated String).run left₀)
      ((extract (a.withTimings false) : ExceptT Failure Simulated String).run right₀) := by
  unfold extract
  refine SideBySide.begin h ?_
  refine (SideBySide.failingAs .configuration
    (Configuration.reports_forExtract a).sideBySide).bind_except fun c => ?_
  refine (Machine.sideBySide_openScope (isStage_opening _)).lift_bind fun scope scope' hscope => ?_
  have hclose : ∀ ending, SideBySide left₀ right₀ Eq
      (Machine.closeScope scope ending : Simulated Unit) (Machine.closeScope scope' ending) :=
    fun ending => Machine.sideBySide_closeScope hscope.1 hscope.2
      fun begun now => isStage_closing _ begun now ending
  refine (sideBySide_extractClient c.client a).lift_bind ?_
  rintro result _ rfl
  cases result with
  | ok manifest => exact (hclose _).lift_bind fun _ _ _ => sideBySide_pure rfl
  | error failure => exact (hclose _).lift_bind fun _ _ _ => sideBySide_pure rfl

/-- How a run with timings and a run without them compare: they come out the same, leave the same
files and print the same, and only their logs differ. If details are not written without timings,
what is written then is what is ordinary with them, up to times. -/
structure ToldToLogAlone {α : Type} (timed₀ plain₀ : World) (timed plain : α × World) : Prop where
  /-- They come out the same. -/
  result : timed.1 = plain.1
  /-- They leave the same files. -/
  tree : timed.2.tree = plain.2.tree
  /-- They print the same. -/
  output : timed.2.output = plain.2.output
  /-- Their logs differ in details, in entries about stages and in times. -/
  logs : ∃ entries entries' : List Log.Entry,
    timed.2.complaints = timed₀.complaints ++ entries.map .entry ∧
    plain.2.complaints = plain₀.complaints ++ entries'.map .entry ∧
    (plain₀.threshold = .info → entries'.map Log.Entry.untimed =
      (entries.filter Log.Entry.isOrdinary).map Log.Entry.untimed)

/-- Timings are told to the log alone, whatever is written to it at the beginning. -/
theorem run_tells_timings_to_log_alone (a : Arguments) {timed plain : World}
    (h : timed.Agrees plain) :
    ToldToLogAlone timed plain
      ((run (a.withTimings true) : ExceptT Failure Simulated Unit).run timed)
      ((run (a.withTimings false) : ExceptT Failure Simulated Unit).run plain) := by
  have hends : EndBeside timed plain Eq
      ((run (a.withTimings true) : ExceptT Failure Simulated Unit).run timed)
      ((run (a.withTimings false) : ExceptT Failure Simulated Unit).run plain) :=
    (sideBySide_extract a h).bind_except fun text =>
      (Machine.sideBySide_print (text ++ "\n")).lift
  have hbeside := hends.2
  exact ⟨hends.1, hbeside.agrees.tree.symm, hbeside.agrees.output.symm, hbeside.logs⟩

/-- A world with one operation in one file. -/
def oneOperation (threshold : Log.Severity) (readings : List Nat) : World :=
  ⟨⟨[(["q.graphql"], .file "query Q {a {b}}".toUTF8)]⟩, [], threshold, readings, [], ""⟩

theorem run_tells_timings_to_log_alone_of_one_operation :
    let a : Arguments := { output := "m", clientName := some "web", includes := ["q.graphql"] }
    (oneOperation .warn [3, 5]).Agrees (oneOperation .info [8]) ∧
      ToldToLogAlone (oneOperation .warn [3, 5]) (oneOperation .info [8])
        ((run (a.withTimings true) : ExceptT Failure Simulated Unit).run (oneOperation .warn [3, 5]))
        ((run (a.withTimings false) : ExceptT Failure Simulated Unit).run
          (oneOperation .info [8])) := by
  have hagrees : (oneOperation .warn [3, 5]).Agrees (oneOperation .info [8]) := ⟨rfl, rfl, rfl⟩
  exact ⟨hagrees, run_tells_timings_to_log_alone _ hagrees⟩

end Command

end Safelist
