import Mathlib.Data.List.Induction
import Safelist.Proofs.Client.Searching

/-!
# What is found

The paths to search are taken in order, and each of them contributes source files. The
first that does not is to blame: nothing is there, or a directory that it leads to has a
path that is too long. Of paths that are equal up to pieces that stay in place the first
is kept. The order in which directories show their entries does not matter.
-/

namespace Safelist.Client

open Files (Place Tree Node maxPathBytes)
open Files.Path (key join)

/-- The source files that a path to search contributes. -/
inductive Contributes (w : World) (excludes : List String) (path : String) :
    List String → Prop
  /-- A path that is left out contributes nothing. -/
  | excluded (hex : Excluded excludes path) : Contributes w excludes path []
  /-- A file contributes itself. -/
  | file (hkept : ¬Excluded excludes path) (hkind : w.kindOf path = some .file) :
    Contributes w excludes path [path]
  /-- A directory contributes the source files below it, in the order of their paths. -/
  | directory {place : Place} {files : List String} (hkept : ¬Excluded excludes path)
      (hplace : w.tree.locate w.here path = .ok place) (hdir : w.tree.isDirectory place = true)
      (hshort : ∀ names, ¬Overlong w.tree excludes path place names)
      (hsorted : files.Pairwise fun p q => key p < key q)
      (hfiles : ∀ p, p ∈ files ↔
        ∃ names, Wanted w.tree excludes path place names ∧ p = pathTo path names) :
    Contributes w excludes path files

/-- Why a path can not be searched. -/
inductive Fails (w : World) (excludes : List String) (path : String) : ProjectError → Prop
  /-- The path leads to neither a file nor a directory. -/
  | missing (hkept : ¬Excluded excludes path) (hkind : w.kindOf path = none) :
    Fails w excludes path (.includeNotFound path)
  /-- A directory has too long a path, and it is the first in the order of the paths. -/
  | overlong {place : Place} {names : List String} (hkept : ¬Excluded excludes path)
      (hplace : w.tree.locate w.here path = .ok place)
      (hlong : Overlong w.tree excludes path place names)
      (hleast : ∀ names', Overlong w.tree excludes path place names' →
        ¬key (pathTo path names') < key (pathTo path names)) :
    Fails w excludes path (.unreadable (pathTo path names) .nameTooLong)

/-- The first of the paths to search that does not contribute files is to blame. -/
def FailsFirst (w : World) (excludes includes : List String) (e : ProjectError) : Prop :=
  ∃ before path after, includes = before ++ path :: after ∧
    (∀ p ∈ before, ∃ files, Contributes w excludes p files) ∧ Fails w excludes path e

/-- What is left of paths when each that equals an earlier one, up to pieces that stay in place, is
dropped. -/
inductive FirstsOf : List String → List String → Prop
  /-- Nothing is left of nothing. -/
  | nil : FirstsOf [] []
  /-- A path that equals no earlier one is kept. -/
  | keep {paths files : List String} {path : String} (h : FirstsOf paths files)
      (hnew : ∀ p ∈ paths, key p ≠ key path) : FirstsOf (paths ++ [path]) (files ++ [path])
  /-- A path that equals an earlier one is dropped. -/
  | drop {paths files : List String} {path : String} (h : FirstsOf paths files)
      (hold : ∃ p ∈ paths, key p = key path) : FirstsOf (paths ++ [path]) files

variable {t : Tree} {excludes : List String} {directory name path : String} {place : Place}
  {names rest : List String}

section Contributions

variable {w : World} {files : List String} {e : ProjectError}

/-- Where a path to search leads to a directory. -/
theorem kindOf_eq_directory_iff : w.kindOf path = some .directory ↔
    ∃ place, w.tree.locate w.here path = .ok place ∧ w.tree.isDirectory place = true := by
  rw [World.kindOf]
  cases w.tree.locate w.here path with
  | error fault => simp
  | ok place =>
    cases hnode : w.tree.node? place with
    | none => simp [hnode, Files.Tree.isDirectory]
    | some node => cases node <;> simp [hnode, Files.Tree.isDirectory, Node.isDirectory]

theorem run_sourcesOf_excluded (hex : Excluded excludes path) :
    ExceptT.run (m := Simulated) (sourcesOf excludes path) w = (.ok [], w) := by
  rw [sourcesOf, if_pos (isExcluded_iff.mpr hex)]
  rfl

theorem run_sourcesOf (hkept : ¬Excluded excludes path) :
    ExceptT.run (m := Simulated) (sourcesOf excludes path) w =
      match w.kindOf path with
      | some .file => (.ok [path], w)
      | some .directory => ExceptT.run (m := Simulated) (sourcesBelow excludes path) w
      | none => (.error (.includeNotFound path), w) := by
  rw [sourcesOf, if_neg (mt isExcluded_iff.mp hkept), Simulated.run_lift_bind]
  show ExceptT.run (m := Simulated) (match w.kindOf path with
    | some .file => pure [path]
    | some .directory => sourcesBelow excludes path
    | none => throw (ProjectError.includeNotFound path)) w = _
  cases w.kindOf path with
  | none => rfl
  | some kind => cases kind <;> rfl

/-- Paths in the order of their keys are settled by which ones they are. -/
theorem eq_of_mem_iff {files' : List String} (h : files.Pairwise fun p q => key p < key q)
    (h' : files'.Pairwise fun p q => key p < key q) (hmem : ∀ p, p ∈ files ↔ p ∈ files') :
    files = files' := by
  have hantisymm : Std.Antisymm fun p q : String => key p < key q :=
    ⟨fun _ _ hpq hqp => absurd hqp (lt_asymm hpq)⟩
  have hirrefl : Std.Irrefl fun p q : String => key p < key q := ⟨fun _ => lt_irrefl _⟩
  exact h.eq_of_mem_iff h' hmem

/-- The paths found below a directory are those of the files that are wanted, in their order. -/
theorem Report.ok_elim (h : Report directory (Wanted t excludes directory place)
    (Overlong t excludes directory place) (.ok files)) :
    (∀ names, ¬Overlong t excludes directory place names) ∧
      (files.Pairwise fun p q => key p < key q) ∧
      ∀ p, p ∈ files ↔
        ∃ names, Wanted t excludes directory place names ∧ p = pathTo directory names := by
  cases h with
  | found hlong hsorted hhas =>
    refine ⟨hlong, List.pairwise_map.mpr (hsorted.imp_of_mem fun {a b} ha hb hab => ?_), ?_⟩
    · exact (key_pathTo_lt_iff ((hhas a).mp ha).legal ((hhas b).mp hb).legal).mpr hab
    · intro p
      rw [List.mem_map]
      exact exists_congr fun names => by rw [hhas, eq_comm]

/-- The path to blame is the first in the order of the paths. -/
theorem Report.error_elim (h : Report directory (Wanted t excludes directory place)
    (Overlong t excludes directory place) (.error e)) :
    ∃ names, Overlong t excludes directory place names ∧
      (∀ names', Overlong t excludes directory place names' →
        ¬key (pathTo directory names') < key (pathTo directory names)) ∧
      e = .unreadable (pathTo directory names) .nameTooLong := by
  cases h with
  | failed hlong hleast =>
    refine ⟨_, hlong, fun names' hnames' => ?_, rfl⟩
    rw [key_pathTo_lt_iff hnames'.leads.isEntryName hlong.leads.isEntryName]
    exact hleast names' hnames'

theorem run_sourcesOf_of_contributes (h : Contributes w excludes path files) :
    ExceptT.run (m := Simulated) (sourcesOf excludes path) w = (.ok files, w) := by
  cases h with
  | excluded hex => exact run_sourcesOf_excluded hex
  | file hkept hkind => rw [run_sourcesOf hkept, hkind]
  | @directory place _ hkept hplace hdir hshort hsorted hfiles =>
    rw [run_sourcesOf hkept, kindOf_eq_directory_iff.mpr ⟨place, hplace, hdir⟩]
    obtain ⟨outcome, hrun, hreport⟩ :=
      finds_sourcesBelow w excludes (Files.Tree.opens_of_locate hplace hdir) hkept
    refine hrun.trans (Prod.ext ?_ rfl)
    cases outcome with
    | error e =>
      obtain ⟨names, hlong, -⟩ := hreport.error_elim
      exact absurd hlong (hshort names)
    | ok found =>
      obtain ⟨-, hfound, hmem⟩ := hreport.ok_elim
      exact congrArg Except.ok
        (eq_of_mem_iff hfound hsorted fun p => (hmem p).trans (hfiles p).symm)

theorem run_sourcesOf_of_fails (h : Fails w excludes path e) :
    ExceptT.run (m := Simulated) (sourcesOf excludes path) w = (.error e, w) := by
  cases h with
  | missing hkept hkind => rw [run_sourcesOf hkept, hkind]
  | @overlong place names hkept hplace hlong hleast =>
    have hdir := hlong.leads.isDirectory
    rw [run_sourcesOf hkept, kindOf_eq_directory_iff.mpr ⟨place, hplace, hdir⟩]
    obtain ⟨outcome, hrun, hreport⟩ :=
      finds_sourcesBelow w excludes (Files.Tree.opens_of_locate hplace hdir) hkept
    refine hrun.trans (Prod.ext ?_ rfl)
    cases outcome with
    | ok found => exact absurd hlong (hreport.ok_elim.1 names)
    | error e =>
      obtain ⟨names', hlong', hleast', rfl⟩ := hreport.error_elim
      -- Neither comes before the other, so both are the same.
      have hkey : key (pathTo path names') = key (pathTo path names) :=
        le_antisymm (not_lt.mp (hleast' names hlong)) (not_lt.mp (hleast names' hlong'))
      rw [key_pathTo hlong'.leads.isEntryName, key_pathTo hlong.leads.isEntryName] at hkey
      rw [List.append_cancel_left hkey]

/-- Each path to search contributes files or fails. -/
theorem contributes_or_fails (w : World) (excludes : List String) (path : String) :
    (∃ files, Contributes w excludes path files) ∨ ∃ e, Fails w excludes path e := by
  by_cases hex : Excluded excludes path
  · exact .inl ⟨_, .excluded hex⟩
  · cases hkind : w.kindOf path with
    | none => exact .inr ⟨_, .missing hex hkind⟩
    | some kind =>
      cases kind with
      | file => exact .inl ⟨_, .file hex hkind⟩
      | directory =>
        obtain ⟨place, hplace, hdir⟩ := kindOf_eq_directory_iff.mp hkind
        obtain ⟨outcome, -, hreport⟩ :=
          finds_sourcesBelow w excludes (Files.Tree.opens_of_locate hplace hdir) hex
        cases outcome with
        | ok files =>
          obtain ⟨hshort, hsorted, hfiles⟩ := hreport.ok_elim
          exact .inl ⟨files, .directory hex hplace hdir hshort hsorted hfiles⟩
        | error e =>
          obtain ⟨names, hlong, hleast, -⟩ := hreport.error_elim
          exact .inr ⟨_, .overlong hex hplace hlong hleast⟩

/-- A path contributes files when it is left out, or leads to something below which no directory has
too long a path. -/
theorem exists_contributes_iff : (∃ files, Contributes w excludes path files) ↔
    ¬Excluded excludes path → w.kindOf path ≠ none ∧ ∀ place names,
      w.tree.locate w.here path = .ok place → ¬Overlong w.tree excludes path place names := by
  constructor
  · rintro ⟨files, h⟩ hkept
    have hok := run_sourcesOf_of_contributes h
    refine ⟨fun hkind => ?_, fun place names hplace hlong => ?_⟩
    · rw [run_sourcesOf_of_fails (.missing hkept hkind)] at hok
      cases hok
    · cases h with
      | excluded hex => exact hkept hex
      | file _ hkind =>
        rw [kindOf_eq_directory_iff.mpr ⟨place, hplace, hlong.leads.isDirectory⟩] at hkind
        cases hkind
      | directory _ hplace' _ hshort =>
        obtain rfl := Except.ok.inj (hplace.symm.trans hplace')
        exact hshort names hlong
  · intro h
    refine (contributes_or_fails w excludes path).resolve_right ?_
    rintro ⟨e, hfails⟩
    cases hfails with
    | missing hkept hkind => exact (h hkept).1 hkind
    | overlong hkept hplace hlong => exact (h hkept).2 _ _ hplace hlong

end Contributions

section SameNodes

variable {w w' : World} {files : List String} {e : ProjectError}

theorem Wanted.congr {t' : Tree} (hnodes : ∀ p, t'.node? p = t.node? p)
    (h : Wanted t excludes directory place names) :
    Wanted t' excludes directory place names := by
  obtain ⟨node, hleads, hnode⟩ := h.leads
  exact ⟨⟨node, hleads.congr hnodes, hnode⟩, h.entered, h.source, h.kept⟩

theorem Overlong.congr {t' : Tree} (hnodes : ∀ p, t'.node? p = t.node? p)
    (h : Overlong t excludes directory place names) :
    Overlong t' excludes directory place names :=
  ⟨h.leads.congr hnodes, h.entered, h.kept, h.long⟩

theorem kindOf_congr (hhere : w'.here = w.here)
    (hnodes : ∀ p, w'.tree.node? p = w.tree.node? p) : w'.kindOf path = w.kindOf path := by
  rw [World.kindOf, World.kindOf, hhere, Files.Tree.locate_congr hnodes]
  simp only [hnodes]

/-- What a path contributes is settled by what is at the places of the tree. -/
theorem Contributes.congr (hhere : w'.here = w.here)
    (hnodes : ∀ p, w'.tree.node? p = w.tree.node? p) (h : Contributes w excludes path files) :
    Contributes w' excludes path files := by
  have hback := fun p => (hnodes p).symm
  cases h with
  | excluded hex => exact .excluded hex
  | file hkept hkind => exact .file hkept ((kindOf_congr hhere hnodes).trans hkind)
  | directory hkept hplace hdir hshort hsorted hfiles =>
    refine .directory hkept ?_ ((Files.Tree.isDirectory_congr hnodes _).trans hdir)
      (fun names hlong => hshort names (hlong.congr hback)) hsorted fun p => ?_
    · rw [hhere, Files.Tree.locate_congr hnodes, hplace]
    · rw [hfiles]
      exact exists_congr fun names => and_congr_left' ⟨.congr hnodes, .congr hback⟩

/-- So is why it can not be searched. -/
theorem Fails.congr (hhere : w'.here = w.here)
    (hnodes : ∀ p, w'.tree.node? p = w.tree.node? p) (h : Fails w excludes path e) :
    Fails w' excludes path e := by
  cases h with
  | missing hkept hkind => exact .missing hkept ((kindOf_congr hhere hnodes).trans hkind)
  | overlong hkept hplace hlong hleast =>
    refine .overlong hkept ?_ (hlong.congr hnodes) fun names' hnames' =>
      hleast names' (hnames'.congr fun p => (hnodes p).symm)
    rw [hhere, Files.Tree.locate_congr hnodes, hplace]

end SameNodes

section Lists

variable {w w' : World} {paths includes files : List String} {parts : List (List String)}
  {e : ProjectError}

theorem run_sourcesOfAll_of_contributes
    (h : List.Forall₂ (Contributes w excludes) includes parts) :
    ExceptT.run (m := Simulated) (sourcesOfAll excludes includes) w = (.ok parts.flatten, w) := by
  induction h with
  | nil => rfl
  | cons hfirst _ ih =>
    exact run_append (run_sourcesOf_of_contributes hfirst) ih

theorem run_sourcesOfAll_of_failsFirst (h : FailsFirst w excludes includes e) :
    ExceptT.run (m := Simulated) (sourcesOfAll excludes includes) w = (.error e, w) := by
  obtain ⟨before, path, after, rfl, hbefore, hfails⟩ := h
  induction before with
  | nil =>
    rw [List.nil_append, sourcesOfAll, Simulated.run_bind_eq, run_sourcesOf_of_fails hfails]
  | cons p before ih =>
    rw [List.forall_mem_cons] at hbefore
    obtain ⟨⟨files, hfirst⟩, hbefore⟩ := hbefore
    exact run_append (run_sourcesOf_of_contributes hfirst) (ih hbefore)

/-- Either each of the paths to search contributes files, or one is the first that fails. -/
theorem contributes_or_failsFirst (w : World) (excludes includes : List String) :
    (∃ parts, List.Forall₂ (Contributes w excludes) includes parts) ∨
      ∃ e, FailsFirst w excludes includes e := by
  induction includes with
  | nil => exact .inl ⟨[], .nil⟩
  | cons path includes ih =>
    obtain ⟨files, hfirst⟩ | ⟨e, hfails⟩ := contributes_or_fails w excludes path
    · obtain ⟨parts, hparts⟩ | ⟨e, before, path', after, rfl, hbefore, hfails⟩ := ih
      · exact .inl ⟨files :: parts, .cons hfirst hparts⟩
      · exact .inr ⟨e, path :: before, path', after, rfl,
          List.forall_mem_cons.mpr ⟨⟨files, hfirst⟩, hbefore⟩, hfails⟩
    · exact .inr ⟨e, [], path, includes, rfl, by simp, hfails⟩

theorem exists_forall₂_iff : (∃ parts, List.Forall₂ (Contributes w excludes) includes parts) ↔
    ∀ path ∈ includes, ∃ files, Contributes w excludes path files := by
  induction includes with
  | nil => simp
  | cons path includes ih =>
    rw [List.forall_mem_cons, ← ih]
    constructor
    · rintro ⟨_, _ | ⟨hfirst, hparts⟩⟩
      exact ⟨⟨_, hfirst⟩, _, hparts⟩
    · rintro ⟨⟨files, hfirst⟩, parts, hparts⟩
      exact ⟨files :: parts, .cons hfirst hparts⟩

/-- A path behind others is kept when it equals none of them and none that has been seen. -/
theorem distinctPaths_concat (seen : List (List String)) (paths : List String) (path : String) :
    distinctPaths seen (paths ++ [path]) = distinctPaths seen paths ++
      if key path ∈ seen ++ paths.map key then [] else [path] := by
  induction paths generalizing seen with
  | nil => by_cases hp : key path ∈ seen <;> simp [distinctPaths, hp]
  | cons p paths ih =>
    by_cases hp : key p ∈ seen
    · have hiff : key path ∈ seen ++ (p :: paths).map key ↔
          key path ∈ seen ++ paths.map key := by
        have hseen : key path = key p → key path ∈ seen := fun h => h ▸ hp
        simp only [List.map_cons, List.mem_append, List.mem_cons]
        tauto
      simp only [List.cons_append, distinctPaths, List.contains_eq_mem, hp, decide_true, if_true,
        ih, hiff]
    · have hiff : key path ∈ seen ++ (p :: paths).map key ↔
          key path ∈ (key p :: seen) ++ paths.map key := by
        simp [or_left_comm]
      simp only [List.cons_append, distinctPaths, List.contains_eq_mem, hp, decide_false,
        Bool.false_eq_true, if_false, ih, hiff]

/-- What is left of paths without repetitions are the first ones. -/
theorem firstsOf_iff : FirstsOf paths files ↔ distinctPaths [] paths = files := by
  constructor
  · intro h
    induction h with
    | nil => rfl
    | keep _ hnew ih => rw [distinctPaths_concat, ih, if_neg (by simpa using hnew)]
    | drop _ hold ih =>
      rw [distinctPaths_concat, ih, if_pos (by simpa using hold), List.append_nil]
  · rintro rfl
    induction paths using List.reverseRecOn with
    | nil => exact .nil
    | append_singleton paths path ih =>
      rw [distinctPaths_concat]
      split
      · rename_i hold
        rw [List.append_nil]
        exact .drop ih (by simpa using hold)
      · rename_i hnew
        exact .keep ih (by simpa using hnew)

theorem FailsFirst.congr (hhere : w'.here = w.here)
    (hnodes : ∀ p, w'.tree.node? p = w.tree.node? p) (h : FailsFirst w excludes includes e) :
    FailsFirst w' excludes includes e := by
  obtain ⟨before, path, after, hincludes, hbefore, hfails⟩ := h
  refine ⟨before, path, after, hincludes, fun p hp => ?_, hfails.congr hhere hnodes⟩
  obtain ⟨files, hfiles⟩ := hbefore p hp
  exact ⟨files, hfiles.congr hhere hnodes⟩

variable {s : Settings}

theorem run_discover_of_contributes
    (h : List.Forall₂ (Contributes w s.excludes) s.includes parts)
    (hfirsts : FirstsOf parts.flatten files) :
    ExceptT.run (m := Simulated) (discover s) w = (.ok files, w) := by
  rw [discover, Simulated.run_bind_eq, run_sourcesOfAll_of_contributes h,
    ← firstsOf_iff.mp hfirsts]
  rfl

theorem run_discover_of_failsFirst (h : FailsFirst w s.excludes s.includes e) :
    ExceptT.run (m := Simulated) (discover s) w = (.error e, w) := by
  rw [discover, Simulated.run_bind_eq, run_sourcesOfAll_of_failsFirst h]

theorem run_discover_eq_ok_iff :
    ExceptT.run (m := Simulated) (discover s) w = (.ok files, w) ↔ ∃ parts,
      List.Forall₂ (Contributes w s.excludes) s.includes parts ∧
        FirstsOf parts.flatten files := by
  constructor
  · intro hrun
    obtain ⟨parts, hparts⟩ | ⟨e, hfails⟩ := contributes_or_failsFirst w s.excludes s.includes
    · have hfirsts : FirstsOf parts.flatten _ := firstsOf_iff.mpr rfl
      cases hrun.symm.trans (run_discover_of_contributes hparts hfirsts)
      exact ⟨parts, hparts, hfirsts⟩
    · cases hrun.symm.trans (run_discover_of_failsFirst hfails)
  · rintro ⟨parts, hparts, hfirsts⟩
    exact run_discover_of_contributes hparts hfirsts

theorem run_discover_eq_error_iff :
    ExceptT.run (m := Simulated) (discover s) w = (.error e, w) ↔
      FailsFirst w s.excludes s.includes e := by
  constructor
  · intro hrun
    obtain ⟨parts, hparts⟩ | ⟨e, hfails⟩ := contributes_or_failsFirst w s.excludes s.includes
    · cases hrun.symm.trans (run_discover_of_contributes hparts (firstsOf_iff.mpr rfl))
    · cases hrun.symm.trans (run_discover_of_failsFirst hfails)
      exact hfails
  · exact run_discover_of_failsFirst

/-- A search changes nothing. -/
theorem exists_run_discover (s : Settings) (w : World) :
    ∃ outcome, ExceptT.run (m := Simulated) (discover s) w = (outcome, w) := by
  obtain ⟨parts, hparts⟩ | ⟨e, hfails⟩ := contributes_or_failsFirst w s.excludes s.includes
  · exact ⟨_, run_discover_of_contributes hparts (firstsOf_iff.mpr rfl)⟩
  · exact ⟨_, run_discover_of_failsFirst hfails⟩

/-- A search returns the source files that the paths to search contribute, without those that equal
an earlier one, whenever each of the paths that is not left out leads to a file or a directory and
no directory to be searched has too long a path. Otherwise the first path that can not be searched
is to blame. The order in which directories show their entries does not matter. -/
theorem discover_finds_wanted (s : Settings) (w : World) :
    ∃ outcome, ExceptT.run (m := Simulated) (discover s) w = (outcome, w) ∧
      (∀ files, outcome = .ok files ↔ ∃ parts,
        List.Forall₂ (Contributes w s.excludes) s.includes parts ∧
          FirstsOf parts.flatten files) ∧
      (∀ e, outcome = .error e ↔ FailsFirst w s.excludes s.includes e) ∧
      ((∃ files, outcome = .ok files) ↔ ∀ path ∈ s.includes, ¬Excluded s.excludes path →
        w.kindOf path ≠ none ∧ ∀ place names, w.tree.locate w.here path = .ok place →
          ¬Overlong w.tree s.excludes path place names) ∧
      ∀ w' : World, w'.here = w.here → (∀ place, w'.tree.node? place = w.tree.node? place) →
        ExceptT.run (m := Simulated) (discover s) w' = (outcome, w') := by
  obtain ⟨outcome, hrun⟩ := exists_run_discover s w
  have houtcome : ∀ r, outcome = r ↔ ExceptT.run (m := Simulated) (discover s) w = (r, w) := by
    intro r
    rw [hrun, Prod.mk.injEq, and_iff_left rfl]
  refine ⟨outcome, hrun, fun files => (houtcome _).trans run_discover_eq_ok_iff,
    fun e => (houtcome _).trans run_discover_eq_error_iff, ?_, fun w' hhere hnodes => ?_⟩
  · simp only [houtcome, run_discover_eq_ok_iff, ← exists_contributes_iff, ← exists_forall₂_iff]
    constructor
    · rintro ⟨files, parts, hparts, -⟩
      exact ⟨parts, hparts⟩
    · rintro ⟨parts, hparts⟩
      exact ⟨_, parts, hparts, firstsOf_iff.mpr rfl⟩
  · cases outcome with
    | ok files =>
      obtain ⟨parts, hparts, hfirsts⟩ := run_discover_eq_ok_iff.mp hrun
      exact run_discover_of_contributes (hparts.imp fun _ _ h => h.congr hhere hnodes) hfirsts
    | error e =>
      exact run_discover_of_failsFirst
        ((run_discover_eq_error_iff.mp hrun).congr hhere hnodes)

end Lists

section LongPaths

/-- A path to a directory, with so many dots before its name. -/
def dotted : Nat → String
  | 0 => "a"
  | n + 1 => "./" ++ dotted n

/-- A world with a directory in a directory. -/
def nestedWorld : World where
  tree := ⟨[(["a"], .directory), (["a", "b"], .directory)]⟩
  here := []
  threshold := .info
  readings := []
  complaints := []
  output := ""

theorem pieces_dotted (n : Nat) :
    Files.Path.pieces (dotted n) = List.replicate n "." ++ ["a"] := by
  induction n with
  | zero => decide
  | succ n ih =>
    have hpieces : Files.Path.pieces (dotted (n + 1)) = "." :: Files.Path.pieces (dotted n) := by
      simp [dotted, Files.Path.pieces, Files.Path.split]
    rw [hpieces, ih]
    rfl

theorem utf8ByteSize_dotted (n : Nat) : (dotted n).utf8ByteSize = 2 * n + 1 := by
  induction n with
  | zero => decide
  | succ n ih =>
    have hdot : "./".utf8ByteSize = 2 := by decide
    rw [dotted, String.utf8ByteSize_append, ih, hdot]
    omega

theorem opens_dotted (n : Nat) :
    nestedWorld.tree.Opens nestedWorld.here (dotted n) ["a"] := by
  refine ⟨by decide, ⟨Files.maxLinks, ?_⟩, fun hempty => ?_, ?_⟩
  · have horigin : Files.Tree.origin nestedWorld.here (dotted n) = [] := ite_self _
    rw [horigin, pieces_dotted]
    induction n with
    | zero =>
      have hnode : nestedWorld.tree.node? ([] ++ ["a"]) = some .directory := rfl
      exact .enter (by decide) ⟨by decide, by decide, by decide⟩ hnode (by simp) .arrive
    | succ n ih => exact .stay (by decide) (by decide) (ih (ite_self _))
  · have hsize := utf8ByteSize_dotted n
    rw [hempty, String.utf8ByteSize_empty] at hsize
    omega
  · induction n with
    | zero => decide
    | succ n ih => simpa [dotted] using ih

/-- The inner directory can not be read by way of a path to the outer one that is as long as a path
may be. -/
theorem fails_nestedWorld (hplace : nestedWorld.tree.locate nestedWorld.here path = .ok ["a"])
    (hsize : path.utf8ByteSize = maxPathBytes) :
    Fails nestedWorld [] path (.unreadable (join path "b") .nameTooLong) := by
  have hkept : ∀ path, ¬Excluded [] path := by simp [Excluded]
  have hlong : Overlong nestedWorld.tree [] path ["a"] ["b"] := by
    refine ⟨.enter (by decide) (by decide) (.arrive rfl), by decide, hkept _, ?_⟩
    rw [← hsize]
    exact Files.size_lt_join (by decide) path
  refine .overlong (hkept path) hplace hlong fun names hnames => ?_
  rw [key_pathTo_lt_iff hnames.leads.isEntryName hlong.leads.isEntryName]
  cases names with
  | nil => exact absurd hnames.long (Nat.not_lt.mpr hsize.le)
  | cons name rest =>
    have hnode := (Files.Tree.leads_cons_iff.mp hnames.leads).2.2.node?_ne_none
    have hname : name = "b" := by
      by_contra hne
      refine hnode ?_
      simp [nestedWorld, Files.Tree.node?, Ne.symm hne]
    simp [hname]

/-- A directory that is there may not be searched: a directory in it has too long a path. -/
theorem discover_dotted_fails :
    nestedWorld.kindOf (dotted 2047) = some .directory ∧
      ExceptT.run (m := Simulated) (discover { includes := [dotted 2047] }) nestedWorld =
        (.error (.unreadable (join (dotted 2047) "b") .nameTooLong), nestedWorld) := by
  have hsize : (dotted 2047).utf8ByteSize = maxPathBytes := utf8ByteSize_dotted 2047
  have hplace := (opens_dotted 2047).locate hsize.le
  refine ⟨kindOf_eq_directory_iff.mpr ⟨_, hplace, by decide⟩, run_discover_of_failsFirst ?_⟩
  exact ⟨[], dotted 2047, [], rfl, by simp, fails_nestedWorld hplace hsize⟩

end LongPaths

end Safelist.Client
