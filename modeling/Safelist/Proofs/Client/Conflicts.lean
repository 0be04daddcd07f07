import Safelist.Proofs.Client.Collection
import Safelist.Proofs.Document.Reachability

/-!
# The first conflict among source files

Going through files in order one comes upon their definitions, and upon files that
can not be parsed. A project takes them in one by one: what it holds is what has been
come upon so far, and it refuses the first finding that clashes with those before it.
So files make a project exactly when nothing in them clashes.
-/

namespace Safelist.Client

/-- What one comes upon in a file. -/
inductive Finding where
  /-- The file can not be parsed. -/
  | unparsable (path : String) (cause : Lexical.ReadError)
  /-- The file has a definition. -/
  | definition (path : String) (definition : Definition)

namespace Finding

/-- The operation that is come upon, if it has a name. -/
def operation? : Finding → Option SourcedOperation
  | .definition path (.operation op) => op.name.map fun name => ⟨name, op, path⟩
  | _ => none

/-- The fragment that is come upon. -/
def fragment? : Finding → Option SourcedFragment
  | .definition path (.fragment f) => some ⟨f, path⟩
  | _ => none

end Finding

/-- The operations with a name among findings, in order. -/
def operationsAmong (fs : List Finding) : List SourcedOperation := fs.filterMap Finding.operation?

/-- The fragments among findings, in order. -/
def fragmentsAmong (fs : List Finding) : List SourcedFragment := fs.filterMap Finding.fragment?

/-- What one comes upon in a file of a path and a text. -/
def findingsIn (path text : String) : List Finding :=
  match Document.parse text with
  | .error cause => [.unparsable path cause]
  | .ok d => d.definitions.map (.definition path)

/-- What one comes upon in some files, in the order of the files and inside them. -/
def findings (sources : List (String × String)) : List Finding :=
  sources.flatMap fun source => findingsIn source.1 source.2

/-- Nothing among findings clashes: all files can be parsed, no two operations have one name, and no
two fragments do. -/
structure Harmonious (fs : List Finding) : Prop where
  /-- All files can be parsed. -/
  parsable : ∀ path cause, .unparsable path cause ∉ fs
  /-- No operation has the name of another. -/
  operationNames : ((operationsAmong fs).map SourcedOperation.name).Nodup
  /-- No fragment has the name of another. -/
  fragmentNames : ((fragmentsAmong fs).map (·.fragment.name)).Nodup

/-- A finding clashes with those before it, and this is the error. -/
inductive Clashes (before : List Finding) : Finding → ProjectError → Prop
  /-- A file that can not be parsed always clashes. -/
  | unparsable {path : String} {cause : Lexical.ReadError} :
    Clashes before (.unparsable path cause) (.unparsable path cause)
  /-- An operation clashes with one of its name. -/
  | operation {first path name : String} {op op' : Operation} (hop : op.name = some name)
    (hfirst : .definition first (.operation op') ∈ before) (hop' : op'.name = some name) :
    Clashes before (.definition path (.operation op)) (.duplicateOperation name first path)
  /-- A fragment clashes with one of its name. -/
  | fragment {first path : String} {f f' : Fragment}
    (hfirst : .definition first (.fragment f') ∈ before) (hname : f'.name = f.name) :
    Clashes before (.definition path (.fragment f)) (.duplicateFragment f.name first path)

/-- After some findings, the first of more findings that clashes does so with this error. -/
def FirstClash (fs more : List Finding) (e : ProjectError) : Prop :=
  ∃ before bad after, more = before ++ bad :: after ∧ Harmonious (fs ++ before) ∧
    Clashes (fs ++ before) bad e

section Findings

variable {fs more : List Finding} {path : String} {x : Definition} {e : ProjectError}

theorem operationsAmong_append (fs more : List Finding) :
    operationsAmong (fs ++ more) = operationsAmong fs ++ operationsAmong more :=
  List.filterMap_append

theorem fragmentsAmong_append (fs more : List Finding) :
    fragmentsAmong (fs ++ more) = fragmentsAmong fs ++ fragmentsAmong more :=
  List.filterMap_append

theorem mem_operationsAmong_iff {o : SourcedOperation} : o ∈ operationsAmong fs ↔
    .definition o.path (.operation o.operation) ∈ fs ∧ o.operation.name = some o.name := by
  simp only [operationsAmong, List.mem_filterMap]
  constructor
  · rintro ⟨x, hx, ho⟩
    cases x with
    | unparsable path cause => cases ho
    | definition path y =>
      cases y with
      | operation op =>
        obtain ⟨name, hname, rfl⟩ := Option.map_eq_some_iff.mp ho
        exact ⟨hx, hname⟩
      | fragment f => cases ho
  · rintro ⟨hx, hname⟩
    exact ⟨_, hx, by simp [Finding.operation?, hname]⟩

theorem mem_fragmentsAmong_iff {f : SourcedFragment} :
    f ∈ fragmentsAmong fs ↔ .definition f.path (.fragment f.fragment) ∈ fs := by
  simp only [fragmentsAmong, List.mem_filterMap]
  constructor
  · rintro ⟨x, hx, hf⟩
    cases x with
    | unparsable path cause => cases hf
    | definition path y =>
      cases y with
      | operation op => cases hf
      | fragment f =>
        cases hf
        exact hx
  · exact fun hx => ⟨_, hx, rfl⟩

theorem harmonious_nil : Harmonious [] :=
  ⟨by simp, by simp [operationsAmong], by simp [fragmentsAmong]⟩

/-- What comes first is harmonious if the whole is. -/
theorem Harmonious.of_append (h : Harmonious (fs ++ more)) : Harmonious fs := by
  have ho := h.operationNames
  have hf := h.fragmentNames
  rw [operationsAmong_append, List.map_append] at ho
  rw [fragmentsAmong_append, List.map_append] at hf
  exact ⟨fun path cause hm => h.parsable path cause (List.mem_append_left _ hm),
    (List.nodup_append.mp ho).1, (List.nodup_append.mp hf).1⟩

/-- One more name does not repeat any of others just when it is not among them. -/
theorem nodup_concat_iff {names : List String} {name : String} (h : names.Nodup) :
    (names ++ [name]).Nodup ↔ name ∉ names :=
  ⟨fun hc hn => (List.nodup_append.mp hc).2.2 name hn name (List.mem_singleton_self name) rfl,
    Project.nodup_concat h⟩

/-- One more definition is harmonious with others when neither an operation nor a fragment among
them has its name. -/
theorem harmonious_concat_iff (h : Harmonious fs) : Harmonious (fs ++ [.definition path x]) ↔
    ((operationsAmong (fs ++ [.definition path x])).map SourcedOperation.name).Nodup ∧
      ((fragmentsAmong (fs ++ [.definition path x])).map (·.fragment.name)).Nodup :=
  ⟨fun hc => ⟨hc.operationNames, hc.fragmentNames⟩,
    fun hc => ⟨by simpa using h.parsable, hc.1, hc.2⟩⟩

/-- The first clash is in the first part, or in the second when there is none in the first. -/
theorem firstClash_append_iff {after : List Finding} : FirstClash fs (more ++ after) e ↔
    FirstClash fs more e ∨ Harmonious (fs ++ more) ∧ FirstClash (fs ++ more) after e := by
  constructor
  · rintro ⟨before, bad, rest, hsplit, hh, hc⟩
    obtain ⟨middle, rfl, hrest⟩ | ⟨middle, rfl, hrest⟩ := List.append_eq_append_iff.mp hsplit
    · rw [← List.append_assoc] at hh hc
      exact .inr ⟨hh.of_append, middle, bad, rest, hrest, hh, hc⟩
    · cases middle with
      | nil =>
        rw [List.append_nil]
        exact .inr ⟨hh, [], bad, rest, hrest.symm, by simpa using hh, by simpa using hc⟩
      | cons first middle =>
        obtain ⟨rfl, rfl⟩ := List.cons.inj hrest
        exact .inl ⟨before, bad, middle, rfl, hh, hc⟩
  · rintro (⟨before, bad, rest, rfl, hh, hc⟩ | ⟨-, before, bad, rest, rfl, hh, hc⟩)
    · exact ⟨before, bad, rest ++ after, by simp, hh, hc⟩
    · rw [List.append_assoc] at hh hc
      exact ⟨more ++ before, bad, rest, by simp, hh, hc⟩

/-- The first clash of a single finding is its own. -/
theorem firstClash_singleton_iff {bad : Finding} (h : Harmonious fs) :
    FirstClash fs [bad] e ↔ Clashes fs bad e := by
  constructor
  · rintro ⟨before, bad', after, hsplit, -, hc⟩
    cases before with
    | nil =>
      obtain ⟨rfl, -⟩ := List.cons.inj hsplit
      simpa using hc
    | cons first before => simp at hsplit
  · exact fun hc => ⟨[], bad, [], rfl, by simpa using h, by simpa using hc⟩

end Findings

namespace Project

/-- The project of some files that holds what has been come upon. -/
def gathered (files : List String) (fs : List Finding) : Project :=
  ⟨files, operationsAmong fs, fragmentsAmong fs⟩

variable {files : List String} {fs : List Finding} {path : String} {q : Project} {e : ProjectError}

/-- An operation that is held stands among the findings. -/
theorem operation?_gathered_eq_some_iff (h : Harmonious fs) {name : String}
    {o : SourcedOperation} : (gathered files fs).operation? name = some o ↔
      .definition o.path (.operation o.operation) ∈ fs ∧ o.operation.name = some o.name ∧
        o.name = name := by
  rw [operation?, gathered, find?_key_eq_some_iff h.operationNames, mem_operationsAmong_iff,
    and_assoc]

/-- A fragment that is held stands among the findings. -/
theorem fragment?_gathered_eq_some_iff (h : Harmonious fs) {name : String} {f : SourcedFragment} :
    (gathered files fs).fragment? name = some f ↔
      .definition f.path (.fragment f.fragment) ∈ fs ∧ f.fragment.name = name := by
  have hfind : (gathered files fs).fragment? name = some f ↔
      f ∈ fragmentsAmong fs ∧ f.fragment.name = name := find?_key_eq_some_iff h.fragmentNames
  rw [hfind, mem_fragmentsAmong_iff]

/-- A definition is taken in when no other has its name, and then it is held behind them. -/
theorem outcome_define_eq_ok_iff (h : Harmonious fs) {x : Definition} :
    ((gathered files fs).define path x).outcome = .ok q ↔
      Harmonious (fs ++ [.definition path x]) ∧
        q = gathered files (fs ++ [.definition path x]) := by
  rw [harmonious_concat_iff h, operationsAmong_append, fragmentsAmong_append, List.map_append,
    List.map_append]
  cases x with
  | operation op =>
    have hf : fragmentsAmong [.definition path (.operation op)] = [] := rfl
    cases hn : op.name with
    | none =>
      have ho : operationsAmong [.definition path (.operation op)] = [] := by
        simp [operationsAmong, Finding.operation?, hn]
      have hsame : gathered files (fs ++ [.definition path (.operation op)]) =
          gathered files fs := by
        simp [gathered, operationsAmong_append, fragmentsAmong_append, ho, hf]
      simp [define, hn, ho, hf, hsame, h.operationNames, h.fragmentNames, eq_comm]
    | some name =>
      have ho : operationsAmong [.definition path (.operation op)] = [⟨name, op, path⟩] := by
        simp [operationsAmong, Finding.operation?, hn]
      have hmore : gathered files (fs ++ [.definition path (.operation op)]) =
          { gathered files fs with operations := operationsAmong fs ++ [⟨name, op, path⟩] } := by
        simp [gathered, operationsAmong_append, fragmentsAmong_append, ho, hf]
      have hnew : (gathered files fs).operation? name = none ↔
          name ∉ (operationsAmong fs).map SourcedOperation.name := operation?_eq_none_iff
      rw [ho, hf, List.map_singleton, nodup_concat_iff h.operationNames, ← hnew, hmore]
      simp only [define, hn, List.map_nil, List.append_nil]
      split
      · rename_i hfirst
        simp [Log.Account.fail, hfirst]
      · rename_i hnone
        rw [and_iff_right ⟨hnone, h.fragmentNames⟩]
        exact ⟨fun hq => (Except.ok.inj hq).symm, fun hq => congrArg Except.ok hq.symm⟩
  | fragment f =>
    have ho : operationsAmong [.definition path (.fragment f)] = [] := rfl
    have hf : fragmentsAmong [.definition path (.fragment f)] = [⟨f, path⟩] := rfl
    have hmore : gathered files (fs ++ [.definition path (.fragment f)]) =
        { gathered files fs with fragments := fragmentsAmong fs ++ [⟨f, path⟩] } := by
      simp [gathered, operationsAmong_append, fragmentsAmong_append, ho, hf]
    have hnew : (gathered files fs).fragment? f.name = none ↔
        f.name ∉ (fragmentsAmong fs).map (·.fragment.name) := by
      simp [fragment?, gathered]
    rw [ho, hf, List.map_singleton, nodup_concat_iff h.fragmentNames, ← hnew, hmore]
    simp only [define, List.map_nil, List.append_nil]
    split
    · rename_i hfirst
      simp [Log.Account.fail, hfirst]
    · rename_i hnone
      rw [and_iff_right ⟨h.operationNames, hnone⟩]
      exact ⟨fun hq => (Except.ok.inj hq).symm, fun hq => congrArg Except.ok hq.symm⟩

/-- A definition is refused when it clashes with what is held. -/
theorem outcome_define_eq_error_iff (h : Harmonious fs) {x : Definition} :
    ((gathered files fs).define path x).outcome = .error e ↔
      Clashes fs (.definition path x) e := by
  constructor
  · intro hq
    cases x with
    | operation op =>
      simp only [define] at hq
      split at hq
      · cases hq
      · rename_i name hn
        split at hq
        · rename_i first hfirst
          cases hq
          obtain ⟨hm, hname, rfl⟩ := (operation?_gathered_eq_some_iff h).mp hfirst
          exact .operation hn hm hname
        · cases hq
    | fragment f =>
      simp only [define] at hq
      split at hq
      · rename_i first hfirst
        cases hq
        obtain ⟨hm, hname⟩ := (fragment?_gathered_eq_some_iff h).mp hfirst
        exact .fragment hm hname
      · cases hq
  · intro hc
    cases hc with
    | @operation first _ name op op' hop hfirst hop' =>
      have hfind : (gathered files fs).operation? name = some ⟨name, op', first⟩ :=
        (operation?_gathered_eq_some_iff h).mpr ⟨hfirst, hop', rfl⟩
      simp only [define, hop, hfind]
      rfl
    | @fragment first _ f f' hfirst hname =>
      have hfind : (gathered files fs).fragment? f.name = some ⟨f', first⟩ :=
        (fragment?_gathered_eq_some_iff h).mpr ⟨hfirst, hname⟩
      simp only [define, hfind]
      rfl

/-- Work on the project that holds some findings takes in more of them, up to the first that
clashes. -/
structure TakesIn (files : List String) (fs more : List Finding)
    (work : Log.Account ProjectError Project) : Prop where
  /-- The work succeeds when nothing clashes, and then all findings are held. -/
  outcome_eq_ok_iff : ∀ q, work.outcome = .ok q ↔
    Harmonious (fs ++ more) ∧ q = gathered files (fs ++ more)
  /-- The work fails with the first clash. -/
  outcome_eq_error_iff : ∀ e, work.outcome = .error e ↔ FirstClash fs more e

/-- More is taken in by work after work. -/
theorem TakesIn.bind {files' : List String} {more after : List Finding}
    {work : Log.Account ProjectError Project} {g : Project → Log.Account ProjectError Project}
    (h : TakesIn files fs more work) (hnext : Harmonious (fs ++ more) →
      TakesIn files' (fs ++ more) after (g (gathered files (fs ++ more)))) :
    TakesIn files' fs (more ++ after) (work >>= g) := by
  refine ⟨fun q => ?_, fun e => ?_⟩
  · rw [Log.Account.outcome_bind_eq_ok_iff, ← List.append_assoc]
    constructor
    · rintro ⟨p, hp, hq⟩
      obtain ⟨hh, rfl⟩ := (h.outcome_eq_ok_iff p).mp hp
      exact ((hnext hh).outcome_eq_ok_iff q).mp hq
    · intro hq
      have hh := hq.1.of_append
      exact ⟨_, (h.outcome_eq_ok_iff _).mpr ⟨hh, rfl⟩, ((hnext hh).outcome_eq_ok_iff q).mpr hq⟩
  · rw [Log.Account.outcome_bind_eq_error_iff, firstClash_append_iff, h.outcome_eq_error_iff]
    refine or_congr_right ⟨?_, fun ⟨hh, hc⟩ => ?_⟩
    · rintro ⟨p, hp, he⟩
      obtain ⟨hh, rfl⟩ := (h.outcome_eq_ok_iff p).mp hp
      exact ⟨hh, ((hnext hh).outcome_eq_error_iff e).mp he⟩
    · exact ⟨_, (h.outcome_eq_ok_iff _).mpr ⟨hh, rfl⟩, ((hnext hh).outcome_eq_error_iff e).mpr hc⟩

theorem takesIn_nil (h : Harmonious fs) : TakesIn files fs [] (pure (gathered files fs)) := by
  refine ⟨fun q => ?_, fun e => ?_⟩
  · rw [List.append_nil, and_iff_right h, Log.Account.outcome_pure]
    exact ⟨fun hq => (Except.ok.inj hq).symm, fun hq => congrArg Except.ok hq.symm⟩
  · simp [FirstClash]

theorem takesIn_define (h : Harmonious fs) (x : Definition) :
    TakesIn files fs [.definition path x] ((gathered files fs).define path x) :=
  ⟨fun _ => outcome_define_eq_ok_iff h,
    fun _ => (outcome_define_eq_error_iff h).trans (firstClash_singleton_iff h).symm⟩

/-- Definitions of a file are taken in one by one. -/
theorem takesIn_defineAll (h : Harmonious fs) (xs : List Definition) :
    TakesIn files fs (xs.map (.definition path)) ((gathered files fs).defineAll path xs) := by
  induction xs generalizing fs with
  | nil => exact takesIn_nil h
  | cons x xs ih => exact (takesIn_define h x).bind fun hx => ih hx

/-- All that one comes upon in a file is taken in. -/
theorem takesIn_addSource (h : Harmonious fs) (text : String) :
    TakesIn (files ++ [path]) fs (findingsIn path text)
      ((gathered files fs).addSource path text) := by
  unfold addSource findingsIn
  cases Document.parse text with
  | error cause =>
    refine ⟨fun q => ?_, fun e => ?_⟩
    · constructor
      · intro hq
        cases hq
      · rintro ⟨hh, -⟩
        exact absurd (List.mem_append_right fs List.mem_cons_self) (hh.parsable path cause)
    · rw [firstClash_singleton_iff h]
      constructor
      · rintro ⟨⟩
        exact .unparsable
      · rintro ⟨⟩
        rfl
  | ok d =>
    have hdefs : TakesIn files fs (d.definitions.map (.definition path))
        ((gathered files fs).defineAll path d.definitions) := takesIn_defineAll h _
    -- Once its definitions are taken in, the file is listed.
    have hlisted : TakesIn (files ++ [path]) fs (d.definitions.map (.definition path) ++ [])
        ((gathered files fs).defineAll path d.definitions >>=
          fun p => pure { p with files := p.files ++ [path] }) :=
      hdefs.bind fun hh => takesIn_nil hh
    rw [List.append_nil] at hlisted
    refine ⟨fun q => ?_, fun e => ?_⟩
    · rw [Log.Account.outcome_note_bind]
      exact hlisted.outcome_eq_ok_iff q
    · rw [Log.Account.outcome_note_bind]
      exact hlisted.outcome_eq_error_iff e

/-- All that one comes upon in some files is taken in. -/
theorem takesIn_addSources (h : Harmonious fs) (sources : List (String × String)) :
    TakesIn (files ++ sources.map Prod.fst) fs (findings sources)
      ((gathered files fs).addSources sources) := by
  induction sources generalizing files fs with
  | nil =>
    rw [List.map_nil, List.append_nil]
    exact takesIn_nil h
  | cons source sources ih =>
    obtain ⟨path, text⟩ := source
    have hfirst : TakesIn (files ++ [path]) fs (findingsIn path text)
        ((gathered files fs).addSource path text) := takesIn_addSource h text
    have hall := hfirst.bind (g := fun p => p.addSources sources) ih
    rw [List.append_assoc] at hall
    exact hall

/-- Nothing clashes in files that can all be parsed when no name is given twice. -/
theorem harmonious_findings_iff {sources : List (String × String)} :
    Harmonious (findings sources) ↔
      (∀ source ∈ sources, ∃ d, Document.parse source.2 = .ok d) ∧
        ((operationsAmong (findings sources)).map SourcedOperation.name).Nodup ∧
        ((fragmentsAmong (findings sources)).map (·.fragment.name)).Nodup := by
  have hparsable : (∀ path cause, .unparsable path cause ∉ findings sources) ↔
      ∀ source ∈ sources, ∃ d, Document.parse source.2 = .ok d := by
    simp only [findings, List.mem_flatMap, not_exists, not_and]
    constructor
    · intro h source hs
      cases hd : Document.parse source.2 with
      | ok d => exact ⟨d, rfl⟩
      | error cause => exact absurd (by simp [findingsIn, hd]) (h source.1 cause source hs)
    · intro h path cause source hs hm
      obtain ⟨d, hd⟩ := h source hs
      simp [findingsIn, hd] at hm
  rw [← hparsable]
  exact ⟨fun h => ⟨h.parsable, h.operationNames, h.fragmentNames⟩, fun h => ⟨h.1, h.2.1, h.2.2⟩⟩

/-- Files make a project exactly when all of them can be parsed, no two operations in them have one
name and no two fragments have. It holds the files, the operations with a name and the fragments, in
order and each with its file. Otherwise the first finding that clashes with what stands before it is
the one that is reported, a file that can not be parsed standing in the place of its definitions. -/
theorem ofSources_refuses_first_clash (sources : List (String × String)) :
    (∀ p, (ofSources sources).outcome = .ok p ↔
      ((∀ source ∈ sources, ∃ d, Document.parse source.2 = .ok d) ∧
        ((operationsAmong (findings sources)).map SourcedOperation.name).Nodup ∧
        ((fragmentsAmong (findings sources)).map (·.fragment.name)).Nodup) ∧
      p.files = sources.map Prod.fst ∧ p.operations = operationsAmong (findings sources) ∧
        p.fragments = fragmentsAmong (findings sources)) ∧
    ∀ e, (ofSources sources).outcome = .error e ↔ ∃ before bad after,
      findings sources = before ++ bad :: after ∧ Harmonious before ∧ Clashes before bad e := by
  have hall : TakesIn ([] ++ sources.map Prod.fst) [] (findings sources) (ofSources sources) :=
    takesIn_addSources harmonious_nil sources
  rw [List.nil_append] at hall
  refine ⟨fun p => ?_, hall.outcome_eq_error_iff⟩
  rw [hall.outcome_eq_ok_iff, List.nil_append, harmonious_findings_iff]
  refine and_congr_right fun _ => ⟨?_, ?_⟩
  · rintro rfl
    exact ⟨rfl, rfl, rfl⟩
  · rintro ⟨hfiles, hoperations, hfragments⟩
    rw [gathered, ← hfiles, ← hoperations, ← hfragments]

end Project

end Safelist.Client
