import Mathlib.Data.List.Forall2
import Safelist.Manifest.Extraction
import Safelist.Proofs.Client.Merging
import Safelist.Proofs.Machine.Work
import Safelist.Proofs.Manifest.FixedPoint

/-!
# Whatever is merged can be extracted

Every entry of a project's operation set can be registered, so every entry has its
record and the manifest of the set can be made. Making it changes no file.
-/

namespace Safelist

open Simulated

namespace Manifest

/-- A stage does its work, whether it is reported or not. -/
theorem wraps_stage {α : Type} (timings : Bool) (begins completes : Log.Event)
    (work : ExceptT Failure Simulated α) : Wraps (stage timings begins completes work) work := by
  unfold stage
  cases timings with
  | false => exact Machine.still_clock.wraps_lift fun _ => wraps_hand fun _ => yields_pure _
  | true =>
    refine (Machine.reads_report _ _).still.wraps_lift fun _ =>
      Machine.still_clock.wraps_lift fun _ => wraps_hand fun _ => ?_
    exact Machine.still_clock.then_lift fun _ =>
      (Machine.reads_report _ _).still.then_lift fun _ => yields_pure _

/-- A manifest is made of the set alone. -/
theorem yields_build (recipe : Recipe) (timings : Bool) (set : OperationSet) :
    Yields (build recipe timings set).run (recipe.manifest set).outcome := by
  refine (wraps_stage timings _ _ _).yields ?_
  cases timings with
  | false => exact yields_pure _
  | true => exact Machine.yields_tell _

/-- The first entry has its record and the others have theirs, or the first failure comes out. -/
theorem Recipe.outcome_records_cons (recipe : Recipe) (entry : String × Document)
    (entries : List (String × Document)) :
    (recipe.records (entry :: entries)).outcome = (do
      let r ← recipe.record entry.1 entry.2
      let rs ← (recipe.records entries).outcome
      pure (r :: rs)) := by
  rw [records, Log.Account.outcome_bind]
  refine congrArg (Except.bind _) (funext fun r => ?_)
  rw [Log.Account.outcome_note_bind, Log.Account.outcome_bind]
  rfl

/-- Records come out when every entry has one. -/
theorem Recipe.outcome_records_eq_ok_iff (recipe : Recipe) {entries : List (String × Document)}
    {rs : List Record} :
    (recipe.records entries).outcome = .ok rs ↔
      List.Forall₂ (fun e r => recipe.record e.1 e.2 = .ok r) entries rs := by
  induction entries generalizing rs with
  | nil =>
    rw [List.forall₂_nil_left_iff, records, Log.Account.outcome_pure, Except.ok.injEq, eq_comm]
  | cons entry entries ih =>
    rw [outcome_records_cons, bind_eq_ok_iff, List.forall₂_cons_left_iff]
    refine exists_congr fun r => ?_
    rw [bind_eq_ok_iff]
    constructor
    · rintro ⟨hr, rs', hrs, hcons⟩
      exact ⟨rs', hr, ih.mp hrs, (Except.ok.inj hcons).symm⟩
    · rintro ⟨rs', hr, hrs, rfl⟩
      exact ⟨hr, rs', ih.mpr hrs, rfl⟩

/-- Operations that all have a record have their records one by one. -/
theorem Recipe.exists_records (recipe : Recipe) (entries : List (String × Document))
    (h : ∀ e ∈ entries, ∃ r, recipe.record e.1 e.2 = .ok r) :
    ∃ rs, (recipe.records entries).outcome = .ok rs ∧
      List.Forall₂ (fun e r => recipe.record e.1 e.2 = .ok r) entries rs := by
  have hall : ∃ rs, List.Forall₂ (fun e r => recipe.record e.1 e.2 = .ok r) entries rs := by
    induction entries with
    | nil => exact ⟨[], .nil⟩
    | cons e entries ih =>
      obtain ⟨⟨r, hr⟩, hrest⟩ := List.forall_mem_cons.mp h
      obtain ⟨rs, hrs⟩ := ih hrest
      exact ⟨r :: rs, .cons hr hrs⟩
  exact hall.imp fun rs hrs => ⟨recipe.outcome_records_eq_ok_iff.mpr hrs, hrs⟩

/-- A document that is registered under a name, for a project from some files: it holds the
operation of that name and behind it exactly the fragments that the operation uses, each once and
in the order of the files. -/
structure SelfContained (sources : List (String × String)) (name : String) (d : Document) :
    Prop where
  /-- The document can be registered. -/
  check : d.check = .ok ()
  /-- The document is an operation with the fragments it uses. -/
  bundle : ∃ op fs, d.definitions = .operation op :: fs.map Definition.fragment ∧
    op.name = some name ∧ (fs.map Fragment.name).Nodup ∧
    (fs.map Fragment.name).Sublist ((Client.fragmentsOf sources).map Fragment.name) ∧
    ∀ n, n ∈ fs.map Fragment.name ↔ Reachable fs op.selections n
  /-- Some text denotes the document. -/
  wellFormed : d.WellFormed
  /-- Its own reduced form does. -/
  parse_print : Document.parse d.print = .ok d.plain

/-- Every entry of the operation set of a project from files is a self-contained document, and the
manifest of the set can be made, with one record for each entry. -/
theorem extractable_of_merged {sources : List (String × String)} {p : Client.Project}
    {s : Client.Settings} {set : OperationSet}
    (hp : (Client.Project.ofSources sources).outcome = .ok p)
    (hset : (p.operationSet s).outcome = .ok set) :
    (∀ name d, (name, d) ∈ set.entries → SelfContained sources name d) ∧
      ∃ manifest : Manifest,
        List.Forall₂ (fun e r => Recipe.standard.record e.1 e.2 = .ok r) set.entries
          manifest.records ∧
        ∀ (timings : Bool) (w : World),
          ((build .standard timings set : ExceptT Failure Simulated Manifest).run w).1 =
            .ok manifest := by
  have hh := Client.Project.holds_of_ofSources hp
  have hfilled : ∀ x ∈ Client.definitionsOf sources, FilledSet x.selections :=
    fun x hx => (Client.wellFormed_of_mem_definitionsOf hx).2
  have hentry : ∀ name d, (name, d) ∈ set.entries → ∃ op fs, d = .bundle op fs ∧
      Client.Tight name (p.fragmentList.map Fragment.name) op fs ∧ d.Registers op := by
    intro name d hd
    obtain ⟨op, fs, rfl, ht, hne⟩ := hh.exists_of_mem_operationSet hfilled hset hd
    exact ⟨op, fs, rfl, ht, ht.registers hh.fragmentNames hne⟩
  constructor
  · intro name d hd
    obtain ⟨op, fs, rfl, ht, hr⟩ := hentry name d hd
    have hw := hr.wellFormed (Client.Project.wellSpelled_of_mem_operationSet hp hset hd)
    have hfragments : p.fragmentList = Client.fragmentsOf sources := hh.fragments
    refine ⟨Document.check_eq_ok_iff.mpr ⟨op, hr⟩, ⟨op, fs, rfl, ht.named,
      ht.nodup hh.fragmentNames, hfragments ▸ ht.ordered, fun n => ⟨fun hn => ?_,
      ht.mem_of_reachable⟩⟩, hw, hw.parse_print⟩
    obtain ⟨f, hf, rfl⟩ := List.mem_map.mp hn
    exact ht.used f hf
  · obtain ⟨rs, hrs, hall⟩ := Recipe.standard.exists_records set.entries fun e he => by
      obtain ⟨op, fs, -, -, hr⟩ := hentry e.1 e.2 he
      exact ⟨_, Recipe.record_eq_ok_iff.mpr ⟨⟨op, hr⟩, rfl⟩⟩
    refine ⟨.ofRecords rs, hall, fun timings w => ?_⟩
    rw [(yields_build .standard timings set).result w, Recipe.manifest,
      Log.Account.outcome_bind_eq_ok_iff]
    exact ⟨rs, hrs, rfl⟩

/-- Over three files, a fragment with nothing but a client-side field goes with all that is left
empty, an operation with nothing else is passed over, and fragments that use each other stay. -/
theorem extractable_of_merged_erased :
    ∃ sources : List (String × String), sources =
        [("a", "query Q {a {...E} ...F b @client} query Z {z @rest} {anonymous}"),
          ("b", "fragment E on T {...N} fragment G on T {...F g @type}"),
          ("c", "fragment N on T {n @client} fragment F on T {...G} fragment U on T {u}")] ∧
      ∃ p set, (Client.Project.ofSources sources).outcome = .ok p ∧
        (p.operationSet { addTypename := false }).outcome = .ok set ∧
        set.entries.map (fun e => (e.1, e.2.print)) =
          [("Q", "query Q{...F}fragment G on T{...F g}fragment F on T{...G}")] ∧
        (∀ name d, (name, d) ∈ set.entries → SelfContained sources name d) ∧
        ∃ manifest : Manifest,
          List.Forall₂ (fun e r => Recipe.standard.record e.1 e.2 = .ok r) set.entries
            manifest.records ∧
          ∀ (timings : Bool) (w : World),
            ((build .standard timings set : ExceptT Failure Simulated Manifest).run w).1 =
              .ok manifest := by
  refine ⟨_, rfl, Client.Project.exists_operationSet_of_map (by decide +kernel)
    fun p set hp hset _ => ?_⟩
  exact extractable_of_merged hp hset

end Manifest

end Safelist
