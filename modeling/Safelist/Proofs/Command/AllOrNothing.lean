import Safelist.Proofs.Command.Plan
import Safelist.Proofs.Manifest.Codec
import Safelist.Proofs.Manifest.Extraction
import Safelist.Proofs.Manifest.Replacement

/-!
# A run writes its manifest or nothing

Writing the manifest of a run replaces one file or leaves all files as they were, and
nothing is written before.
-/

namespace Safelist

open Simulated

/-- Where a manifest is loaded by the path that it was written to, the path did not lead over the
entry that it names. -/
theorem Manifest.Replaced.named?_of_load {t t' : Files.Tree} {here place : Files.Place}
    {target text : String} {w : World} {m : Manifest} (h : Replaced t here target text t' place)
    (hload : ((load target : ExceptT _ Simulated Manifest).run w).1 = .ok m)
    (htree : w.tree = t') (hhere : w.here = here) :
    (t.erase place).named? here target = some place := by
  obtain ⟨q, hq⟩ := exists_locate_of_load hload
  rw [htree, hhere] at hq
  exact h.leads_only q hq

namespace Command

/-- How work ends that is to write what is planned, if anything is. -/
inductive Ending {α : Type} (planned : Except Failure Plan) (a : Arguments) (w : World)
    (value : Plan → α) : Except Failure α × World → Prop
  /-- There was nothing to write. -/
  | unprepared {f : Failure} {w' : World} (hplan : planned = .error f) (hw : w.Agrees w') :
      Ending planned a w value (.error f, w')
  /-- The manifest could not be written. -/
  | unwritten {p : Plan} {f : Manifest.Failure} {t : Files.Tree} {w' : World}
      (hplan : planned = .ok p)
      (hrefused : ¬Manifest.Admits w.tree w.here a.output)
      (hcode : f.code = "OPM_EXTRACT_IO")
      (h : Manifest.Cleared w.tree w.here a.output t) (hw : { w with tree := t }.Agrees w') :
      Ending planned a w value (.error (.extraction f), w')
  /-- The manifest has been written. -/
  | written {p : Plan} {t : Files.Tree} {place : Files.Place} {w' : World}
      (hplan : planned = .ok p) (hadmits : Manifest.Admits w.tree w.here a.output)
      (h : Manifest.Replaced w.tree w.here a.output p.manifest.write t place)
      (hw : { w with tree := t }.Agrees w') : Ending planned a w value (.ok (value p), w')

variable {s : Client.Settings} {a : Arguments} {w w' : World}

theorem failingAs_bind {ε α β : Type} (f : ε → Failure) (work : ExceptT ε Simulated α)
    (more : α → ExceptT ε Simulated β) :
    failingAs f (work >>= more) = failingAs f work >>= fun a => failingAs f (more a) := by
  funext w
  show (failingAs f (work >>= more)).run w =
    (failingAs f work >>= fun a => failingAs f (more a)).run w
  rw [run_failingAs, run_bind_eq, run_bind_eq, run_failingAs]
  cases (work.run w).1 <;> rfl

/-- Writing a manifest that is made already ends in one of two ways. -/
theorem ending_write {m : Manifest} (hplan : planFor s w = .ok ⟨s, m⟩)
    (hroom : Manifest.HasRoom w.tree w.here a.output) (hw : w.Agrees w') :
    Ending (planFor s w) a w Plan.manifest ((failingAs .extraction (do
      Manifest.stage a.timings .writeBegin .writeComplete (Manifest.replaceFile a.output m.write)
      pure m) : ExceptT Failure Simulated Manifest).run w') := by
  obtain ⟨w₁, w₂, hw₁, hw₂, hrun⟩ := Manifest.wraps_stage a.timings .writeBegin .writeComplete
    (Manifest.replaceFile a.output m.write) w'
  have hagrees := hw.trans hw₁
  have hroom₁ : Manifest.HasRoom w₁.tree w₁.here a.output := by
    rwa [hagrees.tree, hagrees.here]
  have hreplace := Manifest.replacement_replaceFile m.write hroom₁
  generalize (Manifest.replaceFile a.output m.write : ExceptT _ Simulated Unit).run w₁ = r at *
  have hends : ((do
      Manifest.stage a.timings .writeBegin .writeComplete (Manifest.replaceFile a.output m.write)
      pure m) : ExceptT Manifest.Failure Simulated Manifest).run w' =
        (r.1.map fun _ => m, w₂) := by
    rw [run_bind_eq, hrun]
    cases r.1 <;> rfl
  rw [run_failingAs, hends]
  have hafter : ∀ t, ({ w with tree := t } : World).Agrees { w₁ with tree := t } :=
    fun t => ⟨rfl, hagrees.here, hagrees.output⟩
  cases hreplace with
  | failed hrefused hcode h =>
    rw [hagrees.tree, hagrees.here] at hrefused h
    exact .unwritten hplan hrefused hcode h ((hafter _).trans hw₂)
  | done hadmits h =>
    rw [hagrees.tree, hagrees.here] at hadmits h
    exact .written hplan hadmits h ((hafter _).trans hw₂)

/-- The work for a client ends in one of these ways. -/
theorem ending_extractClient (hroom : Manifest.HasRoom w.tree w.here a.output)
    (hw : w.Agrees w') :
    Ending (planFor s w) a w Plan.manifest
      ((extractClient s a : ExceptT Failure Simulated Manifest).run w') := by
  -- All that comes before the writing only reads, so it fails as the plan does.
  have hload := reads_failingAs .project (Client.Project.reads_load s)
  refine hload.bind_elim hw (fun e w' he hw => ?_) fun p w' hp hw => ?_
  · rw [result_failingAs] at he
    exact .unprepared (by simp only [planFor, he, bind, Except.bind]) hw
  rw [result_failingAs] at hp
  have htell := Machine.yields_tell (p.operationSet s)
  refine (reads_failingAs .project htell.reads).bind_elim hw (fun e w' he hw => ?_)
    fun set w' hset hw => ?_
  · rw [result_failingAs, htell.result] at he
    exact .unprepared (by simp only [planFor, hp, he, bind, Except.bind]) hw
  rw [result_failingAs, htell.result] at hset
  have hbuild := Manifest.yields_build .standard a.timings set
  rw [Manifest.extract, failingAs_bind]
  refine (reads_failingAs .extraction hbuild.reads).bind_elim hw (fun e w' he hw => ?_)
    fun m w' hm hw => ?_
  · rw [result_failingAs, hbuild.result] at he
    exact .unprepared (by simp only [planFor, hp, hset, he, bind, Except.bind]) hw
  rw [result_failingAs, hbuild.result] at hm
  have hplan : planFor s w = .ok ⟨s, m⟩ := by
    simp only [planFor, hp, hset, hm, bind, Except.bind, pure, Except.pure]
  exact ending_write hplan hroom hw

theorem client_of_planFor {p : Plan} (h : planFor s w = .ok p) : s = p.client := by
  obtain ⟨_, -, h⟩ := bind_eq_ok_iff.mp h
  obtain ⟨_, -, h⟩ := bind_eq_ok_iff.mp h
  obtain ⟨_, -, h⟩ := bind_eq_ok_iff.mp h
  rw [← Except.ok.inj h]

/-- Closing the scope of a run leaves what has become of it. -/
theorem ending_extract (hroom : Manifest.HasRoom w.tree w.here a.output) :
    Ending (plan a w) a w (fun p => summary p.client a p.manifest)
      ((extract a : ExceptT Failure Simulated String).run w) := by
  unfold extract
  refine (Machine.still_setThreshold _).ite_lift_elim (.refl w) fun w' hw => ?_
  refine (reads_failingAs .configuration (Configuration.reads_forExtract a)).bind_elim hw
    (fun e w' he hw => ?_) fun c w' hc hw => ?_
  · rw [result_failingAs] at he
    exact .unprepared (by simp only [plan, he, bind, Except.bind]) hw
  rw [result_failingAs] at hc
  have hplan : plan a w = planFor c.client w := by simp only [plan, hc, bind, Except.bind]
  rw [hplan]
  refine (Machine.still_openScope _ _).lift_elim hw fun scope w' hw => ?_
  have hends := ending_extractClient (s := c.client) hroom hw
  rw [run_exceptLift_bind]
  generalize (extractClient c.client a : ExceptT Failure Simulated Manifest).run w' = r at *
  have hclose := fun ending => Machine.still_closeScope scope ending r.2
  cases hends with
  | unprepared h hw => exact .unprepared h (hw.trans (hclose _))
  | unwritten h hrefused hcode hcleared hw =>
    exact .unwritten h hrefused hcode hcleared (hw.trans (hclose _))
  | written h hadmits hreplaced hw =>
    have hclient := client_of_planFor h
    rw [hclient] at h ⊢
    exact .written h hadmits hreplaced (hw.trans (hclose _))

/-- What becomes of a world in which a run does what its arguments ask for. -/
inductive AllOrNothing (a : Arguments) (w : World) : Except Failure Unit × World → Prop
  /-- There was nothing to write. All files are as they were. -/
  | unprepared {f : Failure} {w' : World} (hplan : plan a w = .error f)
      (hcode : f.code ∈ ["OPM_CLI_CONFIG_ERROR", "OPM_CLI_PROJECT_ERROR", "OPM_EXTRACT_INPUT"])
      (htree : w'.tree = w.tree) (houtput : w'.output = w.output) :
      AllOrNothing a w (.error f, w')
  /-- The manifest could not be written, since the output does not admit it. All files but the
  temporary sibling of the output are as they were, and that one is not there. -/
  | unwritten {p : Plan} {f : Manifest.Failure} {w' : World} (hplan : plan a w = .ok p)
      (hrefused : ¬Manifest.Admits w.tree w.here a.output)
      (hcode : f.code = "OPM_EXTRACT_IO")
      (htree : Manifest.Cleared w.tree w.here a.output w'.tree) (houtput : w'.output = w.output) :
      AllOrNothing a w (.error (.extraction f), w')
  /-- The manifest has been written to the entry that the path of the output names. It can be
  loaded by every path that leads there, and the path of the output is one of them unless its
  way went over the entry itself. -/
  | written {p : Plan} {place : Files.Place} {w' : World} (hplan : plan a w = .ok p)
      (hadmits : Manifest.Admits w.tree w.here a.output)
      (htree : Manifest.Replaced w.tree w.here a.output p.manifest.write w'.tree place)
      (hload : ∀ path, w'.tree.locate w'.here path = .ok place →
        ((Manifest.load path : ExceptT _ Simulated Manifest).run w').1 = .ok p.manifest)
      (houtputLoads :
        ((Manifest.load a.output : ExceptT _ Simulated Manifest).run w').1 = .ok p.manifest ↔
          (w.tree.erase place).named? w.here a.output = some place)
      (houtput : w'.output = w.output ++ "Successfully wrote " ++
        toString p.manifest.records.length ++ " operations from the " ++ p.client.name ++
          " client to " ++ a.output ++ "\n") :
      AllOrNothing a w (.ok (), w')

/-- A run writes its whole manifest or nothing, wherever there is room for the temporary sibling
of its output. -/
theorem run_all_or_nothing (a : Arguments) (w : World)
    (hroom : Manifest.HasRoom w.tree w.here a.output) :
    AllOrNothing a w ((run a : ExceptT Failure Simulated Unit).run w) := by
  have hends := ending_extract hroom
  rw [run, run_bind_eq]
  generalize (extract a : ExceptT Failure Simulated String).run w = r at *
  cases hends with
  | unprepared hplan hw => exact .unprepared hplan (code_of_plan hplan) hw.tree hw.output
  | unwritten hplan hrefused hcode h hw =>
    exact .unwritten hplan hrefused hcode (hw.tree ▸ h) hw.output
  | @written p t place w' hplan hadmits h hw =>
    obtain rfl : w'.tree = t := hw.tree
    have hhere : w'.here = w.here := hw.here
    have houtput : w'.output = w.output := hw.output
    -- Printing the summary changes neither the files nor where they are seen from.
    refine .written hplan hadmits h (fun path hpath => Manifest.load_eq_of_locate hpath h.content)
      ⟨fun hloaded => ?_, fun hplace => ?_⟩ ?_
    · exact h.named?_of_load hloaded rfl hhere
    · have hlocate := h.leads hplace
      rw [← hhere] at hlocate
      exact Manifest.load_eq_of_locate hlocate h.content
    · have hsummary : summary p.client a p.manifest = "Successfully wrote " ++
          toString p.manifest.records.length ++ " operations from the " ++ p.client.name ++
            " client to " ++ a.output := rfl
      simp only [hsummary, houtput, String.append_assoc]

/-- Where there is something to write and the output admits it, it is written. -/
theorem run_of_admits {p : Plan} (hplan : plan a w = .ok p)
    (hroom : Manifest.HasRoom w.tree w.here a.output)
    (hadmits : Manifest.Admits w.tree w.here a.output) :
    ∃ place w', (run a : ExceptT Failure Simulated Unit).run w = (.ok (), w') ∧
      Manifest.Replaced w.tree w.here a.output p.manifest.write w'.tree place ∧
      w'.here = w.here := by
  have hends := ending_extract hroom
  rw [run, run_bind_eq]
  generalize (extract a : ExceptT Failure Simulated String).run w = r at *
  cases hends with
  | unprepared h =>
    rw [hplan] at h
    cases h
  | unwritten _ hrefused => exact absurd hadmits hrefused
  | @written p' t place w' h _ hreplaced hw =>
    obtain rfl : p = p' := Except.ok.inj (hplan.symm.trans h)
    obtain rfl : w'.tree = t := hw.tree
    exact ⟨place, _, rfl, hreplaced, hw.here⟩

section Empty

open Files Files.Tree

/-- The usual configuration file is not there. -/
theorem kindOf_usualFile (hnode : w.tree.node? (w.here ++ [Configuration.usualFile]) = none) :
    w.kindOf Configuration.usualFile = none := by
  rw [World.kindOf]
  cases hl : w.tree.locate w.here Configuration.usualFile with
  | error fault => rfl
  | ok place =>
    obtain ⟨-, hwalk⟩ := check_bind_eq_ok_iff.mp hl
    obtain ⟨links, hw⟩ := walk_eq_ok_iff.mp hwalk
    have hpieces : Path.pieces Configuration.usualFile = [Configuration.usualFile] := by
      decide
    have horigin : origin w.here Configuration.usualFile = w.here :=
      if_neg (by decide)
    rw [hpieces, horigin] at hw
    exact absurd hw (not_walks_cons (by decide) (by decide) hnode)

/-- The arguments of a run that leaves out all that it looks at. -/
def leavingOut (output : String) : Arguments :=
  { output := output, clientName := some "web", includes := ["x"], excludes := ["x"] }

/-- Such a run has an empty manifest to write. -/
theorem exists_plan_leavingOut (output : String)
    (hnode : w.tree.node? (w.here ++ [Configuration.usualFile]) = none) :
    ∃ p, plan (leavingOut output) w = .ok p := by
  have hkind : (Machine.kindOf Configuration.usualFile : Simulated _) w = (none, w) := by
    simp only [Machine.kindOf, kindOf_usualFile hnode]
  have hload : (Configuration.loadFor (leavingOut output) : ExceptT _ Simulated _).run w =
      (.ok {}, w) := by
    rw [Configuration.loadFor, leavingOut]
    simp only [run_lift_bind, hkind]
    rfl
  have hblank : Text.isBlank "web" = false := by decide
  have hcheck : (Configuration.override (leavingOut output) {}).check = .ok () := by
    show (if Text.isBlank "web" then _ else _) = Except.ok ()
    rw [hblank]
    rfl
  have hfor : (Configuration.forExtract (leavingOut output) : ExceptT _ Simulated _).run w =
      (.ok (.override (leavingOut output) {}), w) := by
    rw [Configuration.forExtract, run_bind_eq, hload]
    simp only [hcheck]
    rfl
  refine ⟨⟨(Configuration.override (leavingOut output) {}).client, .ofRecords []⟩, ?_⟩
  rw [plan, hfor]
  rfl

end Empty

section Stale

open Files Files.Tree

/-- A world with a manifest and what an interrupted run has left beside it. -/
def staleWorld : World :=
  ⟨⟨[(["m"], .file "old".toUTF8), ([".m.tmp"], .file "part".toUTF8)]⟩, [], .info, [], [], ""⟩

/-- A name names an entry of the root. -/
theorem named?_stale {name : String} (he : Path.EndsIn name [] name)
    (hcheck : checkPath name = .ok ()) (horigin : origin [] name = [])
    (hname : name.utf8ByteSize ≤ maxNameBytes) :
    staleWorld.tree.named? [] name = some [name] := by
  refine (named?_eq_some_iff he).mpr
    ⟨hcheck, ⟨he.loud, he.ne_up, hname⟩, [], maxLinks, rfl, rfl, ?_⟩
  rw [horigin]
  exact .arrive

theorem temporaryPlace?_stale :
    Manifest.temporaryPlace? staleWorld.tree [] "m" = some [".m.tmp"] := by
  have htemp : Manifest.temporary? "m" = some ".m.tmp" := by decide
  rw [Manifest.temporaryPlace?_eq htemp]
  exact named?_stale ⟨by decide, by decide, by decide⟩ (by decide)
    (by decide) (by decide)

theorem hasRoom_stale : Manifest.HasRoom staleWorld.tree staleWorld.here "m" := by
  intro p hp node hnode
  obtain rfl : [".m.tmp"] = p := Option.some.inj (temporaryPlace?_stale.symm.trans hp)
  exact ⟨_, (Option.some.inj hnode).symm⟩

theorem admits_stale : Manifest.Admits staleWorld.tree staleWorld.here "m" := by
  have he : Path.EndsIn "m" [] "m" := ⟨by decide, by decide, by decide⟩
  have hnamed := named?_stale he (by decide) (by decide) (by decide)
  exact ⟨⟨_, temporaryPlace?_stale⟩, ⟨_, hnamed, rfl⟩, ⟨_, _, he⟩⟩

/-- What an interrupted run has left does not stand in the way of the next one, which writes its
manifest and leaves nothing beside it. -/
theorem run_all_or_nothing_stale :
    Manifest.HasRoom staleWorld.tree staleWorld.here (leavingOut "m").output ∧
      ((run (leavingOut "m") : ExceptT Failure Simulated Unit).run staleWorld).1 = .ok () ∧
      ((run (leavingOut "m") : ExceptT Failure Simulated Unit).run staleWorld).2.tree.node?
        [".m.tmp"] = none ∧
      AllOrNothing (leavingOut "m") staleWorld
        ((run (leavingOut "m") : ExceptT Failure Simulated Unit).run staleWorld) := by
  obtain ⟨p, hp⟩ := exists_plan_leavingOut (w := staleWorld) "m" rfl
  obtain ⟨place, w', hrun, hreplaced, -⟩ := run_of_admits hp hasRoom_stale admits_stale
  have hends := run_all_or_nothing (leavingOut "m") staleWorld hasRoom_stale
  rw [hrun] at hends ⊢
  exact ⟨hasRoom_stale, rfl, hreplaced.temporary _ temporaryPlace?_stale, hends⟩

end Stale

section Loop

open Files Files.Tree

/-- A world with nothing but a link to the root. -/
def loopWorld : World := ⟨⟨[(["out"], .link ".")]⟩, [], .info, [], [], ""⟩

/-- An extraction of nothing to a path over the link. -/
def throughLoop : Arguments :=
  { output := "out/out", clientName := some "web", includes := ["x"], excludes := ["x"] }

/-- Behind the link, a path names an entry of the root. -/
theorem named?_loop {path name : String} (he : Path.EndsIn path ["out"] name)
    (hcheck : checkPath path = .ok ()) (horigin : origin [] path = [])
    (hname : name.utf8ByteSize ≤ maxNameBytes) : loopWorld.tree.named? [] path = some [name] := by
  have hout : IsName "out" := ⟨by decide, by decide, by decide⟩
  have hdot : Path.pieces "." = ["."] := by decide
  have hwalks : Walks loopWorld.tree maxLinks [] ["out"] 39 [] := by
    refine .follow rfl hout rfl ?_
    rw [hdot]
    exact .stay rfl rfl .arrive
  refine (named?_eq_some_iff he).mpr ⟨hcheck, ⟨he.loud, he.ne_up, hname⟩, [], 39, rfl, rfl, ?_⟩
  rwa [horigin]

theorem endsIn_output : Path.EndsIn throughLoop.output ["out"] "out" :=
  ⟨by decide, by decide, by decide⟩

theorem named?_output : loopWorld.tree.named? [] throughLoop.output = some ["out"] :=
  named?_loop endsIn_output (by decide) (by decide) (by decide)

theorem temporaryPlace?_output :
    Manifest.temporaryPlace? loopWorld.tree [] throughLoop.output = some [".out.tmp"] := by
  have htemp : Manifest.temporary? throughLoop.output = some "out/.out.tmp" := by decide
  rw [Manifest.temporaryPlace?_eq htemp]
  exact named?_loop ⟨by decide, by decide, by decide⟩ (by decide)
    (by decide) (by decide)

theorem hasRoom_loop : Manifest.HasRoom loopWorld.tree loopWorld.here throughLoop.output := by
  intro p hp node hnode
  obtain rfl : [".out.tmp"] = p := Option.some.inj (temporaryPlace?_output.symm.trans hp)
  cases hnode

theorem admits_loop : Manifest.Admits loopWorld.tree loopWorld.here throughLoop.output :=
  ⟨⟨_, temporaryPlace?_output⟩, ⟨_, named?_output, rfl⟩, ⟨_, _, endsIn_output⟩⟩

/-- Without the link the path names nothing. -/
theorem named?_unlooped (p : Place) :
    (loopWorld.tree.erase ["out"]).named? [] throughLoop.output ≠ some p := by
  intro hp
  obtain ⟨-, -, d, links, -, -, hw⟩ := (named?_eq_some_iff endsIn_output).mp hp
  have horigin : origin [] throughLoop.output = [] := by decide
  rw [horigin] at hw
  exact not_walks_cons (by decide) (by decide) rfl hw

end Loop

/-- A run whose path leads over the link that it replaces succeeds, and then nothing is loaded by
its path. -/
theorem run_unloadable_loop :
    Manifest.HasRoom loopWorld.tree loopWorld.here throughLoop.output ∧
      ((run throughLoop : ExceptT Failure Simulated Unit).run loopWorld).1 = .ok () ∧
      ∀ m, ((Manifest.load throughLoop.output : ExceptT _ Simulated Manifest).run
        ((run throughLoop : ExceptT Failure Simulated Unit).run loopWorld).2).1 ≠ .ok m := by
  obtain ⟨p, hp⟩ : ∃ p, plan throughLoop loopWorld = .ok p :=
    exists_plan_leavingOut throughLoop.output rfl
  obtain ⟨place, w', hrun, h, hhere⟩ := run_of_admits hp hasRoom_loop admits_loop
  obtain rfl : place = ["out"] := Option.some.inj (h.entry.symm.trans named?_output)
  rw [hrun]
  exact ⟨hasRoom_loop, rfl, fun m hload => named?_unlooped _ (h.named?_of_load hload rfl hhere)⟩

end Command

end Safelist
