import Mathlib.Data.List.Lex
import Mathlib.Data.List.Sort
import Mathlib.Data.String.Basic
import Safelist.Client.Discovery
import Safelist.Proofs.Files.Listing
import Safelist.Proofs.Machine.Work

/-!
# Searches below directories

Below a directory the files are wanted that have the names of source files, unless their
paths are left out or a directory on the way is not entered. A search finds their paths in
the order of the names that lead to them. It fails at the first directory whose path is
too long to be read.
-/

namespace Safelist.Client

open Files (Place Tree Node isEntryName maxPathBytes)
open Files.Path (key join)

/-- The path that names lead to from a directory. -/
def pathTo (directory : String) (names : List String) : String := names.foldl join directory

/-- A path is left out: up to pieces that stay in place, it begins with one of those to leave
out. -/
def Excluded (excludes : List String) (path : String) : Prop :=
  ∃ e ∈ excludes, key e <+: key path

/-- Names lead from a directory to a source file below it. -/
structure Wanted (t : Tree) (excludes : List String) (directory : String) (place : Place)
    (names : List String) : Prop where
  /-- Something that is no directory is there. -/
  leads : ∃ node, t.Leads place names node ∧ node.isDirectory = false
  /-- No directory on the way is one that is not entered. -/
  entered : ∀ name ∈ names.dropLast, name ∉ ["node_modules", ".git"]
  /-- It has the name of a source file. -/
  source : ∃ name ending, names.getLast? = some name ∧
    Files.Path.extension? name = some ending ∧ ending ∈ ["graphql", "gql"]
  /-- Its path is not left out. -/
  kept : ¬Excluded excludes (pathTo directory names)

/-- Names lead from a directory to a directory that is searched, but has too long a path. -/
structure Overlong (t : Tree) (excludes : List String) (directory : String) (place : Place)
    (names : List String) : Prop where
  /-- A directory is there. -/
  leads : t.Leads place names .directory
  /-- It is entered, and so is every directory on the way. -/
  entered : ∀ name ∈ names, name ∉ ["node_modules", ".git"]
  /-- Its path is not left out. -/
  kept : ¬Excluded excludes (pathTo directory names)
  /-- Its path is too long to be read. -/
  long : maxPathBytes < (pathTo directory names).utf8ByteSize

variable {t : Tree} {excludes : List String} {directory name path : String} {place : Place}
  {names rest : List String}

section Paths

theorem isExcluded_iff : isExcluded excludes path = true ↔ Excluded excludes path := by
  simp [isExcluded, Excluded, Files.Path.isWithin]

theorem isSourceName_iff : isSourceName name = true ↔
    ∃ ending, Files.Path.extension? name = some ending ∧ ending ∈ ["graphql", "gql"] := by
  simp [isSourceName, sourceExtensions, Option.any_eq_true]

theorem isEntered_iff : isEntered name = true ↔ name ∉ ["node_modules", ".git"] := by
  simp [isEntered, skippedDirectories]

theorem key_pathTo (h : ∀ name ∈ names, isEntryName name = true) :
    key (pathTo directory names) = key directory ++ names := by
  induction names generalizing directory with
  | nil => simp [pathTo]
  | cons name names ih =>
    rw [List.forall_mem_cons] at h
    obtain ⟨hpiece, hslash, -⟩ := Files.isEntryName_iff.mp h.1
    show key (pathTo (join directory name) names) = _
    rw [ih h.2, Files.Path.key_join hpiece.loud hslash, List.append_assoc, List.singleton_append]

/-- What is below a path that is left out is left out. -/
theorem Excluded.pathTo (h : Excluded excludes directory)
    (hnames : ∀ name ∈ names, isEntryName name = true) :
    Excluded excludes (pathTo directory names) := by
  obtain ⟨e, he, hprefix⟩ := h
  rw [Excluded, key_pathTo hnames]
  exact ⟨e, he, hprefix.trans (List.prefix_append _ _)⟩

/-- Paths from a directory are ordered as the names that lead there. -/
theorem key_pathTo_lt_iff {names names' : List String}
    (h : ∀ name ∈ names, isEntryName name = true)
    (h' : ∀ name ∈ names', isEntryName name = true) :
    key (pathTo directory names) < key (pathTo directory names') ↔ names < names' := by
  rw [key_pathTo h, key_pathTo h']
  have hmono : StrictMono (key directory ++ · : List String → List String) :=
    fun a b hab => List.Lex.append_left _ hab _
  exact hmono.lt_iff_lt

end Paths

section Entries

theorem Wanted.legal (h : Wanted t excludes directory place names) :
    ∀ name ∈ names, isEntryName name = true := by
  obtain ⟨node, hleads, -⟩ := h.leads
  exact hleads.isEntryName

/-- Below a directory that is entered the same files are wanted as from there. -/
theorem Wanted.cons_iff (hplace : t.isDirectory place = true) (hname : isEntryName name = true)
    (hdir : t.isDirectory (place ++ [name]) = true) (henter : name ∉ ["node_modules", ".git"]) :
    Wanted t excludes directory place (name :: rest) ↔
      Wanted t excludes (join directory name) (place ++ [name]) rest := by
  constructor
  · rintro ⟨⟨node, hleads, hnode⟩, hentered, hsource, hkept⟩
    obtain ⟨-, -, hleads⟩ := Files.Tree.leads_cons_iff.mp hleads
    have hne := hleads.ne_nil hdir hnode
    rw [List.dropLast_cons_of_ne_nil hne, List.forall_mem_cons] at hentered
    rw [List.getLast?_cons_of_ne_nil hne] at hsource
    exact ⟨⟨node, hleads, hnode⟩, hentered.2, hsource, hkept⟩
  · rintro ⟨⟨node, hleads, hnode⟩, hentered, hsource, hkept⟩
    have hne := hleads.ne_nil hdir hnode
    refine ⟨⟨node, .enter hplace hname hleads, hnode⟩, ?_, ?_, hkept⟩
    · rw [List.dropLast_cons_of_ne_nil hne, List.forall_mem_cons]
      exact ⟨henter, hentered⟩
    · rwa [List.getLast?_cons_of_ne_nil hne]

/-- Below a directory that is entered the same directories have too long a path as from there. -/
theorem Overlong.cons_iff (hplace : t.isDirectory place = true) (hname : isEntryName name = true)
    (henter : name ∉ ["node_modules", ".git"]) :
    Overlong t excludes directory place (name :: rest) ↔
      Overlong t excludes (join directory name) (place ++ [name]) rest := by
  constructor
  · rintro ⟨hleads, hentered, hkept, hlong⟩
    exact ⟨(Files.Tree.leads_cons_iff.mp hleads).2.2, (List.forall_mem_cons.mp hentered).2, hkept,
      hlong⟩
  · rintro ⟨hleads, hentered, hkept, hlong⟩
    exact ⟨.enter hplace hname hleads, List.forall_mem_cons.mpr ⟨henter, hentered⟩, hkept, hlong⟩

/-- What is not a directory is wanted when it has the name of a source file. -/
theorem wanted_cons_iff_of_file (hplace : t.isDirectory place = true)
    (hname : isEntryName name = true) (hnode : t.node? (place ++ [name]) ≠ none)
    (hdir : t.isDirectory (place ++ [name]) = false)
    (hkept : ¬Excluded excludes (join directory name)) :
    Wanted t excludes directory place (name :: rest) ↔
      rest = [] ∧ isSourceName name = true := by
  rw [isSourceName_iff]
  constructor
  · rintro ⟨⟨node, hleads, -⟩, -, ⟨last, ending, hlast, hending⟩, -⟩
    obtain ⟨-, -, hrest⟩ := Files.Tree.leads_cons_iff.mp hleads
    cases hrest with
    | arrive =>
      obtain rfl := Option.some.inj hlast
      exact ⟨rfl, ending, hending⟩
    | enter hdir' => simp [hdir] at hdir'
  · rintro ⟨rfl, ending, hending⟩
    obtain ⟨node, hnode⟩ := Option.ne_none_iff_exists'.mp hnode
    refine ⟨⟨node, .enter hplace hname (.arrive hnode), ?_⟩, by simp, ⟨name, ending, rfl, hending⟩,
      hkept⟩
    rw [Files.Tree.isDirectory, hnode, Option.any_some] at hdir
    exact hdir

/-- No directory is below what is not a directory. -/
theorem not_overlong_cons_of_file (hdir : t.isDirectory (place ++ [name]) = false) :
    ¬Overlong t excludes directory place (name :: rest) := by
  intro h
  have hdir' := (Files.Tree.leads_cons_iff.mp h.leads).2.2.isDirectory
  simp [hdir] at hdir'

/-- Nothing is wanted below a directory that is not entered. -/
theorem not_wanted_cons_of_skipped (hdir : t.isDirectory (place ++ [name]) = true)
    (hskip : name ∈ ["node_modules", ".git"]) :
    ¬Wanted t excludes directory place (name :: rest) := by
  rintro ⟨⟨node, hleads, hnode⟩, hentered, -, -⟩
  have hne := (Files.Tree.leads_cons_iff.mp hleads).2.2.ne_nil hdir hnode
  rw [List.dropLast_cons_of_ne_nil hne] at hentered
  exact hentered name List.mem_cons_self hskip

theorem not_overlong_cons_of_skipped (hskip : name ∈ ["node_modules", ".git"]) :
    ¬Overlong t excludes directory place (name :: rest) :=
  fun h => h.entered name List.mem_cons_self hskip

/-- Nothing is wanted below a path that is left out. -/
theorem not_wanted_cons_of_excluded (hex : Excluded excludes (join directory name)) :
    ¬Wanted t excludes directory place (name :: rest) := by
  rintro ⟨⟨node, hleads, -⟩, -, -, hkept⟩
  exact hkept (hex.pathTo (List.forall_mem_cons.mp hleads.isEntryName).2)

theorem not_overlong_cons_of_excluded (hex : Excluded excludes (join directory name)) :
    ¬Overlong t excludes directory place (name :: rest) := by
  rintro ⟨hleads, -, hkept, -⟩
  exact hkept (hex.pathTo (List.forall_mem_cons.mp hleads.isEntryName).2)

end Entries

section Searching

/-- What comes of a search below a directory: the paths in the order of the names that lead there,
unless some are too long; then the first of these is to blame. -/
inductive Report (directory : String) (has long : List String → Prop) :
    Except ProjectError (List String) → Prop
  /-- No path is too long. -/
  | found {found : List (List String)} (hlong : ∀ names, ¬long names)
      (hsorted : found.Pairwise (· < ·)) (hhas : ∀ names, names ∈ found ↔ has names) :
    Report directory has long (.ok (found.map (pathTo directory)))
  /-- The first path that is too long can not be read. -/
  | failed {names : List String} (hlong : long names)
      (hleast : ∀ names', long names' → ¬names' < names) :
    Report directory has long (.error (.unreadable (pathTo directory names) .nameTooLong))

variable {w : World} {x y : ExceptT ProjectError Simulated (List String)}
  {has has' long long' : List String → Prop}

/-- Work finds what there is below a directory and changes nothing. -/
def Finds (w : World) (directory : String) (has long : List String → Prop)
    (x : ExceptT ProjectError Simulated (List String)) : Prop :=
  ∃ outcome, x.run w = (outcome, w) ∧ Report directory has long outcome

theorem Finds.congr (h : Finds w directory has long x) (hhas : ∀ names, has' names ↔ has names)
    (hlong : ∀ names, long' names ↔ long names) : Finds w directory has' long' x := by
  obtain rfl : has' = has := funext fun names => propext (hhas names)
  obtain rfl : long' = long := funext fun names => propext (hlong names)
  exact h

theorem finds_nothing (hhas : ∀ names, ¬has names) (hlong : ∀ names, ¬long names) :
    Finds w directory has long (pure []) :=
  ⟨_, rfl, .found hlong .nil (by simpa using hhas)⟩

/-- What is found from a directory in another one is found from the latter, behind the name. -/
theorem Finds.under (h : Finds w (join directory name) has long x)
    (hhas : ∀ names, has' names ↔ ∃ rest, names = name :: rest ∧ has rest)
    (hlong : ∀ names, long' names ↔ ∃ rest, names = name :: rest ∧ long rest) :
    Finds w directory has' long' x := by
  obtain ⟨outcome, hrun, hreport⟩ := h
  refine ⟨outcome, hrun, ?_⟩
  cases hreport with
  | found hnone hsorted hmem =>
    rename_i found
    have hpaths : found.map (pathTo (join directory name)) =
        (found.map (name :: ·)).map (pathTo directory) := by
      rw [List.map_map]
      rfl
    rw [hpaths]
    refine .found ?_ ?_ fun names => ?_
    · rintro _ hnames
      obtain ⟨rest, -, hrest⟩ := (hlong _).mp hnames
      exact hnone rest hrest
    · rw [List.pairwise_map]
      exact hsorted.imp List.cons_lt_cons_self.mpr
    · rw [hhas, List.mem_map]
      exact exists_congr fun rest => by rw [hmem, eq_comm, and_comm]
  | failed hnames hleast =>
    refine .failed ((hlong (name :: _)).mpr ⟨_, rfl, hnames⟩) fun names' hnames' => ?_
    obtain ⟨rest, rfl, hrest⟩ := (hlong _).mp hnames'
    exact mt List.cons_lt_cons_self.mp (hleast rest hrest)

/-- Searches that come out well are put together; the first that fails is the last. -/
theorem run_append {first more : Except ProjectError (List String)} (hx : x.run w = (first, w))
    (hy : y.run w = (more, w)) : (do pure ((← x) ++ (← y))).run w =
      (do pure ((← first) ++ (← more)), w) := by
  rw [Simulated.run_bind_eq, hx]
  cases first with
  | error e => rfl
  | ok a =>
    show ((y >>= fun b => pure (a ++ b)).run w) = _
    rw [Simulated.run_bind_eq, hy]
    cases more <;> rfl

/-- What is found in two parts is found in order when all of the first part comes first. -/
theorem Finds.append (hx : Finds w directory has long x) (hy : Finds w directory has' long' y)
    (hbefore : ∀ names names', has names ∨ long names → has' names' ∨ long' names' →
      names < names') :
    Finds w directory (fun names => has names ∨ has' names)
      (fun names => long names ∨ long' names) (do pure ((← x) ++ (← y))) := by
  obtain ⟨first, hrun, hfirst⟩ := hx
  obtain ⟨more, hrun', hmore⟩ := hy
  refine ⟨_, run_append hrun hrun', ?_⟩
  cases hfirst with
  | failed hnames hleast =>
    refine .failed (.inl hnames) fun names' hnames' => ?_
    obtain hnames' | hnames' := hnames'
    · exact hleast names' hnames'
    · exact lt_asymm (hbefore _ _ (.inr hnames) (.inr hnames'))
  | found hnone hsorted hhas =>
    cases hmore with
    | failed hnames hleast =>
      exact .failed (.inr hnames) fun names' hnames' =>
        hleast names' (hnames'.resolve_left (hnone names'))
    | found hnone' hsorted' hhas' =>
      show Report _ _ _ (.ok (_ ++ _))
      rw [← List.map_append]
      refine .found (fun names => not_or.mpr ⟨hnone names, hnone' names⟩) ?_ fun names => ?_
      · rw [List.pairwise_append]
        exact ⟨hsorted, hsorted', fun a ha b hb =>
          hbefore a b (.inl ((hhas a).mp ha)) (.inl ((hhas' b).mp hb))⟩
      · rw [List.mem_append, hhas, hhas']

/-- An entry tells what is at its place in the directory at a place. -/
structure Shown (t : Tree) (place : Place) (entry : Files.Listed directory) : Prop where
  /-- Something is there. -/
  node : t.node? (place ++ [entry.name]) ≠ none
  /-- It is a directory when the entry says so. -/
  isDirectory : entry.isDirectory = t.isDirectory (place ++ [entry.name])

/-- Something holds of names that begin with a certain one. -/
def Behind (name : String) (P : List String → Prop) (names : List String) : Prop :=
  ∃ rest, names = name :: rest ∧ P names

/-- Something holds of names that begin with that of an entry. -/
def Among (entries : List (Files.Listed directory)) (P : List String → Prop)
    (names : List String) : Prop :=
  ∃ entry ∈ entries, Behind entry.name P names

theorem not_behind {P : List String → Prop} (h : ∀ rest, ¬P (name :: rest)) :
    ¬Behind name P names := by
  rintro ⟨rest, rfl, hP⟩
  exact h rest hP

theorem among_cons_iff {entry : Files.Listed directory} {entries : List (Files.Listed directory)}
    {P : List String → Prop} :
    Among (entry :: entries) P names ↔ Behind entry.name P names ∨ Among entries P names := by
  simp [Among]

/-- Names come in the order of the first ones. -/
theorem Behind.lt_of_among {P Q : List String → Prop} {names' : List String}
    {entries : List (Files.Listed directory)} (h : Behind name P names)
    (h' : Among entries Q names') (hlt : ∀ e ∈ entries, name < e.name) : names < names' := by
  obtain ⟨rest, rfl, -⟩ := h
  obtain ⟨entry, hentry, rest', rfl, -⟩ := h'
  exact List.Lex.rel (hlt entry hentry)

/-- A file is found when it has the name of a source file. -/
theorem finds_file {source : Bool} (hhas : ∀ names, has names ↔ names = [name] ∧ source = true)
    (hlong : ∀ names, ¬long names) :
    Finds w directory has long (pure (if source then [join directory name] else [])) := by
  cases source with
  | false => exact finds_nothing (fun names hnames => by simp [hhas] at hnames) hlong
  | true =>
    exact ⟨_, rfl, @Report.found directory has long [[name]] hlong (List.pairwise_singleton _ _)
      fun names => by simp [hhas]⟩

section Listing

variable {entries : List (Files.Listed directory)}

/-- The entries of a directory in the order in which they are looked at. -/
theorem pairwise_mergeSort_name (h : t.Shows place entries) :
    (entries.mergeSort fun a b => a.name ≤ b.name).Pairwise fun a b => a.name < b.name := by
  have hle := @List.pairwise_mergeSort _ (fun a b : Files.Listed directory => a.name ≤ b.name)
    (by simpa using fun a b c : Files.Listed directory => le_trans (a := a.name))
    (by simpa using fun a b : Files.Listed directory => le_total a.name b.name) entries
  have hne : (entries.mergeSort fun a b => a.name ≤ b.name).Pairwise fun a b => a.name ≠ b.name :=
    List.pairwise_map.mp (((entries.mergeSort_perm _).map _).nodup_iff.mpr h.nodup)
  exact hle.imp₂ (fun a b hab hne => lt_of_le_of_ne (of_decide_eq_true hab) hne) hne

theorem Shown.of_shows (h : t.Shows place entries) :
    ∀ e ∈ entries.mergeSort fun a b => a.name ≤ b.name, Shown t place e := by
  intro e he
  rw [List.mem_mergeSort] at he
  exact ⟨((h.names e.name).mp (List.mem_map_of_mem he)).2, h.isDirectory e he⟩

/-- Names that lead from a directory to something below it begin with that of an entry. -/
theorem among_iff_of_shows (h : t.Shows place entries) {P : List String → Prop}
    (hP : ∀ names, P names → names ≠ [] ∧ ∃ node, t.Leads place names node) :
    Among (entries.mergeSort fun a b => a.name ≤ b.name) P names ↔ P names := by
  constructor
  · rintro ⟨entry, -, rest, -, hnames⟩
    exact hnames
  · intro hnames
    obtain ⟨hne, node, hleads⟩ := hP names hnames
    obtain ⟨name, rest, rfl⟩ := List.exists_cons_of_ne_nil hne
    obtain ⟨-, hname, hrest⟩ := Files.Tree.leads_cons_iff.mp hleads
    obtain ⟨entry, hentry, rfl⟩ :=
      List.mem_map.mp ((h.names name).mpr ⟨hname, hrest.node?_ne_none⟩)
    exact ⟨entry, List.mem_mergeSort.mpr hentry, rest, rfl, hnames⟩

end Listing

/-- A directory is searched by way of its entries in the order of their names. -/
theorem run_sourcesBelow (w : World) (excludes : List String) (directory : String) :
    ExceptT.run (m := Simulated) (sourcesBelow excludes directory) w =
      match w.tree.list w.here directory with
      | .error fault => (.error (.unreadable directory fault), w)
      | .ok entries => ExceptT.run (m := Simulated)
        (sourcesAmong excludes directory (entries.mergeSort fun a b => a.name ≤ b.name)) w := by
  rw [sourcesBelow, Simulated.run_lift_bind]
  show ExceptT.run (m := Simulated) (match w.tree.list w.here directory with
    | .error fault => throw (ProjectError.unreadable directory fault)
    | .ok entries => sourcesAmong excludes directory _) w = _
  cases w.tree.list w.here directory <;> rfl

/-- The search below a directory that can be opened finds the files that are wanted there. -/
def FindsBelow (w : World) (excludes : List String) (directory : String) : Prop :=
  ∀ place, w.tree.Opens w.here directory place → ¬Excluded excludes directory →
    Finds w directory (Wanted w.tree excludes directory place)
      (Overlong w.tree excludes directory place) (sourcesBelow excludes directory)

/-- The search among entries of such a directory finds the files that are wanted by way of
these. -/
def FindsAmong (w : World) (excludes : List String) (directory : String)
    (entries : List (Files.Listed directory)) : Prop :=
  ∀ place, w.tree.Opens w.here directory place →
    entries.Pairwise (fun a b => a.name < b.name) → (∀ e ∈ entries, Shown w.tree place e) →
    Finds w directory (Among entries (Wanted w.tree excludes directory place))
      (Among entries (Overlong w.tree excludes directory place))
      (sourcesAmong excludes directory entries)

/-- The search at an entry of such a directory finds the files that are wanted by way of it. -/
def FindsAt (w : World) (excludes : List String) (directory : String)
    (entry : Files.Listed directory) : Prop :=
  ∀ place, w.tree.Opens w.here directory place → Shown w.tree place entry →
    Finds w directory (Behind entry.name (Wanted w.tree excludes directory place))
      (Behind entry.name (Overlong w.tree excludes directory place))
      (sourcesAt excludes directory entry)

/-- A directory with too long a path is to blame itself. -/
theorem finds_sourcesBelow_of_lt (excludes : List String)
    (hopens : w.tree.Opens w.here directory place) (hkept : ¬Excluded excludes directory)
    (hs : maxPathBytes < directory.utf8ByteSize) :
    Finds w directory (Wanted w.tree excludes directory place)
      (Overlong w.tree excludes directory place) (sourcesBelow excludes directory) := by
  have hrun := run_sourcesBelow w excludes directory
  rw [hopens.list_of_lt hs] at hrun
  have hleads := Files.Tree.Leads.arrive (Files.Tree.isDirectory_iff.mp hopens.isDirectory)
  exact ⟨_, hrun, @Report.failed directory _ _ [] ⟨hleads, by simp, hkept, hs⟩
    fun _ _ => List.not_lt_nil _⟩

/-- In any other directory everything is found by way of its entries. -/
theorem finds_sourcesBelow_of_le (hopens : w.tree.Opens w.here directory place)
    (hs : directory.utf8ByteSize ≤ maxPathBytes)
    (h : ∀ entries : List (Files.Listed directory),
      FindsAmong w excludes directory (entries.mergeSort fun a b => a.name ≤ b.name)) :
    Finds w directory (Wanted w.tree excludes directory place)
      (Overlong w.tree excludes directory place) (sourcesBelow excludes directory) := by
  obtain ⟨entries, hlist, hshows⟩ := hopens.exists_list hs
  have hrun := run_sourcesBelow w excludes directory
  rw [hlist] at hrun
  have hfinds := (h entries place hopens (pairwise_mergeSort_name hshows)
    (Shown.of_shows hshows)).congr
    (fun _ => (among_iff_of_shows hshows fun names hnames => ?_).symm)
    fun _ => (among_iff_of_shows hshows fun names hnames => ?_).symm
  · obtain ⟨outcome, hmore, hreport⟩ := hfinds
    exact ⟨outcome, hrun.trans hmore, hreport⟩
  · obtain ⟨node, hleads, hnode⟩ := hnames.leads
    exact ⟨hleads.ne_nil hopens.isDirectory hnode, node, hleads⟩
  · refine ⟨?_, _, hnames.leads⟩
    rintro rfl
    exact Nat.not_lt.mpr hs hnames.long

theorem findsBelow_of_findsAmong (h : ∀ entries : List (Files.Listed directory),
    FindsAmong w excludes directory (entries.mergeSort fun a b => a.name ≤ b.name)) :
    FindsBelow w excludes directory := by
  intro place hopens hkept
  obtain hs | hs := Nat.lt_or_ge maxPathBytes directory.utf8ByteSize
  · exact finds_sourcesBelow_of_lt excludes hopens hkept hs
  · exact finds_sourcesBelow_of_le hopens hs h

theorem findsAmong_nil (w : World) (excludes : List String) (directory : String) :
    FindsAmong w excludes directory [] := by
  intro place _ _ _
  rw [sourcesAmong]
  exact finds_nothing (by simp [Among]) (by simp [Among])

theorem findsAmong_cons {entry : Files.Listed directory} {rest : List (Files.Listed directory)}
    (h : FindsAt w excludes directory entry) (hrest : FindsAmong w excludes directory rest) :
    FindsAmong w excludes directory (entry :: rest) := by
  intro place hopens hsorted hshown
  rw [List.pairwise_cons] at hsorted
  rw [List.forall_mem_cons] at hshown
  rw [sourcesAmong]
  refine ((h place hopens hshown.1).append (hrest place hopens hsorted.2 hshown.2) ?_).congr
    (fun _ => among_cons_iff) fun _ => among_cons_iff
  rintro names names' (h | h) (h' | h') <;> exact h.lt_of_among h' hsorted.1

section At

variable {entry : Files.Listed directory}

theorem findsAt_of_excluded (hex : isExcluded excludes (join directory entry.name) = true) :
    FindsAt w excludes directory entry := by
  intro place _ _
  rw [sourcesAt, if_pos hex]
  have hex := isExcluded_iff.mp hex
  exact finds_nothing (fun _ => not_behind fun _ => not_wanted_cons_of_excluded hex)
    fun _ => not_behind fun _ => not_overlong_cons_of_excluded hex

theorem findsAt_of_entered (hex : ¬isExcluded excludes (join directory entry.name) = true)
    (hdir : entry.isDirectory = true) (henter : isEntered entry.name = true)
    (h : FindsBelow w excludes (join directory entry.name)) :
    FindsAt w excludes directory entry := by
  intro place hopens hshown
  rw [sourcesAt, if_neg hex, if_pos hdir, if_pos henter]
  have hdir : w.tree.isDirectory (place ++ [entry.name]) = true := hshown.isDirectory ▸ hdir
  have henter := isEntered_iff.mp henter
  refine (h _ (hopens.join entry.legal hdir) (mt isExcluded_iff.mpr hex)).under ?_ ?_
  · rintro names
    refine exists_congr fun rest => and_congr_right ?_
    rintro rfl
    exact Wanted.cons_iff hopens.isDirectory entry.legal hdir henter
  · rintro names
    refine exists_congr fun rest => and_congr_right ?_
    rintro rfl
    exact Overlong.cons_iff hopens.isDirectory entry.legal henter

theorem findsAt_of_skipped (hex : ¬isExcluded excludes (join directory entry.name) = true)
    (hdir : entry.isDirectory = true) (henter : ¬isEntered entry.name = true) :
    FindsAt w excludes directory entry := by
  intro place _ hshown
  rw [sourcesAt, if_neg hex, if_pos hdir, if_neg henter]
  have hdir : w.tree.isDirectory (place ++ [entry.name]) = true := hshown.isDirectory ▸ hdir
  have hskip := Decidable.not_not.mp (mt isEntered_iff.mpr henter)
  exact finds_nothing (fun _ => not_behind fun _ => not_wanted_cons_of_skipped hdir hskip)
    fun _ => not_behind fun _ => not_overlong_cons_of_skipped hskip

theorem findsAt_of_file (hex : ¬isExcluded excludes (join directory entry.name) = true)
    (hdir : ¬entry.isDirectory = true) : FindsAt w excludes directory entry := by
  intro place hopens hshown
  rw [sourcesAt, if_neg hex, if_neg hdir]
  have hdir : w.tree.isDirectory (place ++ [entry.name]) = false :=
    hshown.isDirectory ▸ Bool.eq_false_of_not_eq_true hdir
  have hfile : ∀ rest, Wanted w.tree excludes directory place (entry.name :: rest) ↔
      rest = [] ∧ isSourceName entry.name = true := fun _ =>
    wanted_cons_iff_of_file hopens.isDirectory entry.legal hshown.node hdir
      (mt isExcluded_iff.mpr hex)
  refine finds_file (fun names => ?_) fun _ => not_behind fun _ => not_overlong_cons_of_file hdir
  constructor
  · rintro ⟨rest, rfl, hwanted⟩
    obtain ⟨rfl, hsource⟩ := (hfile _).mp hwanted
    exact ⟨rfl, hsource⟩
  · rintro ⟨rfl, hsource⟩
    exact ⟨[], rfl, (hfile []).mpr ⟨rfl, hsource⟩⟩

end At

/-- The search below a directory finds the files that are wanted there. -/
theorem finds_sourcesBelow (w : World) (excludes : List String)
    (hopens : w.tree.Opens w.here directory place) (hkept : ¬Excluded excludes directory) :
    Finds w directory (Wanted w.tree excludes directory place)
      (Overlong w.tree excludes directory place) (sourcesBelow excludes directory) := by
  refine sourcesBelow.induct excludes (FindsBelow w excludes) (FindsAmong w excludes)
    (FindsAt w excludes) ?below ?nil ?cons ?excluded ?entered ?skipped ?file directory place hopens
    hkept
  case below =>
    intro directory h
    exact findsBelow_of_findsAmong h
  case nil => exact findsAmong_nil w excludes
  case cons =>
    intro directory entry rest h hrest
    exact findsAmong_cons h hrest
  case excluded =>
    intro directory entry path hex
    exact findsAt_of_excluded hex
  case entered =>
    intro directory entry path hex hdir henter h
    exact findsAt_of_entered hex hdir henter h
  case skipped =>
    intro directory entry path hex hdir henter
    exact findsAt_of_skipped hex hdir henter
  case file =>
    intro directory entry path hex hdir
    exact findsAt_of_file hex hdir

end Searching

end Safelist.Client
