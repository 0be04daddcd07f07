import Safelist.Command.Run
import Safelist.Proofs.Client.Provenance
import Safelist.Proofs.Machine.Reporting
import Safelist.Proofs.Outcome

/-!
# What a run is going to write

Everything that a run does before it writes only reads and reports. Whether there is a
manifest to write, and which one, is settled by the files as they are when the run
begins, and so are the failure if there is none and what is reported.
-/

namespace Safelist

open Simulated

namespace Command.Configuration

theorem reports_load (path : String) :
    Reports (load path : ExceptT ConfigurationError Simulated Configuration).run := by
  refine (Machine.reports_readText path).lift.bind_except fun r => ?_
  cases r with
  | error fault => exact reports_throw _
  | ok text =>
    simp only
    split
    · exact reports_throw _
    · refine (Machine.reports_report rfl _).lift.bind_except fun _ => ?_
      split <;> exact reports_pure _

theorem reports_loadFor (a : Arguments) :
    Reports (loadFor a : ExceptT ConfigurationError Simulated Configuration).run := by
  unfold loadFor
  cases a.config with
  | some path => exact reports_load path
  | none =>
    refine (Machine.reports_kindOf _).lift.bind_except fun kind => ?_
    split
    · exact reports_load _
    · exact reports_pure _

/-- The configuration of an extraction is settled by the files, and so is what is reported on
it. -/
theorem reports_forExtract (a : Arguments) :
    Reports (forExtract a : ExceptT ConfigurationError Simulated Configuration).run := by
  refine (reports_loadFor a).bind_except fun c => ?_
  simp only
  split
  · exact reports_throw _
  · exact reports_pure _

theorem reads_forExtract (a : Arguments) :
    Reads (forExtract a : ExceptT ConfigurationError Simulated Configuration).run :=
  (reports_forExtract a).reads

end Command.Configuration

namespace Client

theorem reports_sourcesBelow (excludes : List String) (directory : String) :
    Reports (sourcesBelow excludes directory : ExceptT ProjectError Simulated _).run := by
  refine sourcesBelow.induct excludes
    (fun directory =>
      Reports (sourcesBelow excludes directory : ExceptT ProjectError Simulated _).run)
    (fun directory entries =>
      Reports (sourcesAmong excludes directory entries : ExceptT ProjectError Simulated _).run)
    (fun directory entry =>
      Reports (sourcesAt excludes directory entry : ExceptT ProjectError Simulated _).run)
    ?below ?nil ?cons ?excluded ?entered ?skipped ?file directory
  case below =>
    intro directory ih
    rw [sourcesBelow]
    refine (Machine.reports_list directory).lift.bind_except fun r => ?_
    cases r with
    | error fault => exact reports_throw _
    | ok entries => exact ih entries
  case nil =>
    intro directory
    rw [sourcesAmong]
    exact reports_pure _
  case cons =>
    intro directory entry rest ih ihrest
    rw [sourcesAmong]
    exact ih.bind_except fun _ => ihrest.bind_except fun _ => reports_pure _
  case excluded =>
    intro directory entry path hex
    rw [sourcesAt, if_pos hex]
    exact reports_pure _
  case entered =>
    intro directory entry path hex hdir henter ih
    rw [sourcesAt, if_neg hex, if_pos hdir, if_pos henter]
    exact ih
  case skipped =>
    intro directory entry path hex hdir henter
    rw [sourcesAt, if_neg hex, if_pos hdir, if_neg henter]
    exact reports_pure _
  case file =>
    intro directory entry path hex hdir
    rw [sourcesAt, if_neg hex, if_neg hdir]
    exact reports_pure _

theorem reports_sourcesOf (excludes : List String) (path : String) :
    Reports (sourcesOf excludes path : ExceptT ProjectError Simulated (List String)).run := by
  unfold sourcesOf
  split
  · exact reports_pure _
  · refine (Machine.reports_kindOf path).lift.bind_except fun kind => ?_
    cases kind with
    | none => exact reports_throw _
    | some kind =>
      cases kind with
      | file => exact reports_pure _
      | directory => exact reports_sourcesBelow excludes path

theorem reports_sourcesOfAll (excludes paths : List String) :
    Reports (sourcesOfAll excludes paths : ExceptT ProjectError Simulated (List String)).run := by
  induction paths with
  | nil => exact reports_pure _
  | cons path rest ih =>
    exact (reports_sourcesOf excludes path).bind_except fun _ =>
      ih.bind_except fun _ => reports_pure _

theorem reports_readSources (paths : List String) :
    Reports (readSources paths : ExceptT ProjectError Simulated (List (String × String))).run := by
  induction paths with
  | nil => exact reports_pure _
  | cons path rest ih =>
    refine (Machine.reports_readText path).lift.bind_except fun r => ?_
    cases r with
    | error fault => exact reports_throw _
    | ok text => exact ih.bind_except fun _ => reports_pure _

namespace Project

open Log.Account

/-- No entry is about a stage when a definition is added to a project. -/
theorem every_define (p : Project) (path : String) (x : Definition) :
    (p.define path x).Every (·.isStage = false) := by
  cases x with
  | operation op =>
    rw [define]
    split
    · exact (every_note (Log.Event.isStage_warning _ _)).bind fun _ => every_pure _
    · split
      · exact every_fail _
      · exact every_pure _
  | fragment f =>
    rw [define]
    split
    · exact every_fail _
    · exact every_pure _

theorem every_defineAll (p : Project) (path : String) (xs : List Definition) :
    (p.defineAll path xs).Every (·.isStage = false) := by
  induction xs generalizing p with
  | nil => exact every_pure p
  | cons x rest ih => exact (every_define p path x).bind ih

theorem every_addSources (p : Project) (sources : List (String × String)) :
    (p.addSources sources).Every (·.isStage = false) := by
  induction sources generalizing p with
  | nil => exact every_pure p
  | cons source rest ih =>
    refine Every.bind ?_ ih
    rw [addSource]
    split
    · exact every_fail _
    · exact (every_note (Log.Event.isStage_entry _ _)).bind fun _ =>
        (every_defineAll p _ _).bind fun _ => every_pure _

theorem every_ofSources (sources : List (String × String)) :
    (ofSources sources).Every (·.isStage = false) :=
  every_addSources empty sources

/-- No entry is about a stage when the operation set of a project is made. -/
theorem every_operationSet (p : Project) (s : Settings) :
    (p.operationSet s).Every (·.isStage = false) := by
  have hall : ∀ os set, (p.bundles s set os).Every (·.isStage = false) := by
    intro os
    induction os with
    | nil => exact fun set => every_pure set
    | cons o rest ih =>
      intro set
      refine (every_ofExcept _).bind fun b => ?_
      simp only
      split
      · exact (every_note (Log.Event.isStage_warning _ _)).bind fun _ => ih set
      · exact (every_ofExcept _).bind ih
  exact hall p.operations .empty

end Project

/-- The project of a client is settled by the files, and so is what is reported on it. -/
theorem Project.reports_load (s : Settings) :
    Reports (Project.load s : ExceptT ProjectError Simulated Project).run := by
  refine (Machine.reports_report rfl _).lift.bind_except fun _ => ?_
  have hdiscover : Reports (discover s : ExceptT ProjectError Simulated (List String)).run :=
    (reports_sourcesOfAll s.excludes s.includes).bind_except fun _ => reports_pure _
  refine hdiscover.bind_except fun paths => ?_
  refine (reports_readSources paths).bind_except fun sources => ?_
  refine (Machine.reports_tell (every_ofSources sources)).bind_except fun p => ?_
  exact (Machine.reports_report rfl _).lift.bind_except fun _ => reports_pure _

theorem Project.reads_load (s : Settings) :
    Reads (Project.load s : ExceptT ProjectError Simulated Project).run :=
  (reports_load s).reads

end Client

namespace Manifest.Recipe

variable {r : Recipe} {f : Failure}

/-- The operation is to blame when there is no record of it. -/
theorem code_of_record {name : String} {d : Document} (h : r.record name d = .error f) :
    f.code = "OPM_EXTRACT_INPUT" := by
  rw [record] at h
  split at h
  · rw [← Except.error.inj h]
    rfl
  · cases h

theorem code_of_records {entries : List (String × Document)}
    (h : (r.records entries).outcome = .error f) : f.code = "OPM_EXTRACT_INPUT" := by
  induction entries with
  | nil => cases h
  | cons e rest ih =>
    obtain hfirst | ⟨first, -, h⟩ := Log.Account.outcome_bind_eq_error_iff.mp h
    · exact code_of_record hfirst
    · rw [Log.Account.outcome_note_bind] at h
      obtain hrest | ⟨_, -, hdone⟩ := Log.Account.outcome_bind_eq_error_iff.mp h
      · exact ih hrest
      · cases hdone

/-- The operations are to blame when a manifest can not be made. -/
theorem code_of_manifest {set : OperationSet} (h : (r.manifest set).outcome = .error f) :
    f.code = "OPM_EXTRACT_INPUT" := by
  obtain hrecords | ⟨_, -, hdone⟩ := Log.Account.outcome_bind_eq_error_iff.mp h
  · exact code_of_records hrecords
  · cases hdone

end Manifest.Recipe

namespace Command

/-- What is to be written for a client. -/
structure Plan where
  /-- The settings of the client. -/
  client : Client.Settings
  /-- The manifest of its operations. -/
  manifest : Manifest

/-- What is to be written for a client, as the files are. -/
def planFor (s : Client.Settings) (w : World) : Except Failure Plan := do
  let p ← ((Client.Project.load s : ExceptT _ Simulated _).run w).1.mapError .project
  let set ← (p.operationSet s).outcome.mapError .project
  let manifest ← (Manifest.Recipe.standard.manifest set).outcome.mapError .extraction
  pure ⟨s, manifest⟩

/-- What the arguments ask to be written, as the files are. -/
def plan (a : Arguments) (w : World) : Except Failure Plan := do
  let c ← ((Configuration.forExtract a : ExceptT _ Simulated _).run w).1.mapError .configuration
  planFor c.client w

/-- The codes of what can keep a run from having anything to write. -/
theorem code_of_plan {a : Arguments} {w : World} {f : Failure} (h : plan a w = .error f) :
    f.code ∈ ["OPM_CLI_CONFIG_ERROR", "OPM_CLI_PROJECT_ERROR", "OPM_EXTRACT_INPUT"] := by
  obtain hc | ⟨c, -, h⟩ := bind_eq_error_iff.mp h
  · obtain ⟨e, -, rfl⟩ := mapError_eq_error_iff.mp hc
    exact .head _
  obtain hp | ⟨p, -, h⟩ := bind_eq_error_iff.mp h
  · obtain ⟨e, -, rfl⟩ := mapError_eq_error_iff.mp hp
    exact .tail _ (.head _)
  obtain hset | ⟨set, -, h⟩ := bind_eq_error_iff.mp h
  · obtain ⟨e, -, rfl⟩ := mapError_eq_error_iff.mp hset
    exact .tail _ (.head _)
  obtain hm | ⟨_, -, hdone⟩ := bind_eq_error_iff.mp h
  · obtain ⟨e, he, rfl⟩ := mapError_eq_error_iff.mp hm
    rw [Failure.code, Manifest.Recipe.code_of_manifest he]
    exact .tail _ (.tail _ (.head _))
  · cases hdone

section Failing

variable {ε α β : Type} (f : ε → Failure)

theorem reads_failingAs {work : ExceptT ε Simulated α}
    (h : Reads work.run) : Reads (failingAs f work).run :=
  h.bind fun _ => reads_pure _

theorem result_failingAs (work : ExceptT ε Simulated α) (w : World) :
    ((failingAs f work).run w).1 = (work.run w).1.mapError f := rfl

theorem run_failingAs (work : ExceptT ε Simulated α) (w : World) :
    (failingAs f work).run w = ((work.run w).1.mapError f, (work.run w).2) := rfl

end Failing

end Command

end Safelist
