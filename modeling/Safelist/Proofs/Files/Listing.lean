import Mathlib.Data.List.Nodup
import Safelist.Proofs.Files.Sibling
import Safelist.Proofs.Files.Walking

/-!
# What directories hold

A path that leads to a directory leads to the directories in it when their names are
joined to it. A listing shows each entry once, in no particular order, and fails for
directories only where the path is too long. All this depends on nothing but what is at
the places of the tree.
-/

namespace Safelist.Files

theorem isEntryName_iff {name : String} : isEntryName name = true ↔
    Tree.IsName name ∧ '/' ∉ name.toList ∧ '\x00' ∉ name.toList := by
  constructor
  · intro h
    simp only [isEntryName, Bool.and_eq_true, Bool.not_eq_true', decide_eq_true_eq,
      List.contains_eq_mem, decide_eq_false_iff_not] at h
    obtain ⟨⟨⟨⟨hloud, hup⟩, hshort⟩, hslash⟩, hzero⟩ := h
    exact ⟨⟨hloud, hup, hshort⟩, hslash, hzero⟩
  · rintro ⟨⟨hloud, hup, hshort⟩, hslash, hzero⟩
    simp [isEntryName, hloud, hup, hshort, hslash, hzero]

namespace Path

variable {base name : String}

/-- A name joined to a path is one more name. -/
theorem names_join (hloud : isSilent name = false) (h : '/' ∉ name.toList) :
    names (join base name) = names base ++ [name] := by
  by_cases hbase : base = ""
  · have hempty : names "" = [] := by decide
    simp [names, join, hbase, pieces_eq_singleton h, hloud, ← hempty]
  · obtain hjoin | ⟨front, hpieces, hjoin⟩ := pieces_join hbase h
    · simp [names, hjoin, hloud]
    · have hsilent : isSilent "" = true := by decide
      simp [names, hjoin, hpieces, hloud, hsilent]

theorem isAbsolute_join (h : '/' ∉ name.toList) :
    isAbsolute (join base name) = isAbsolute base := by
  have hrelative := isAbsolute_eq_false h
  by_cases hbase : base = ""
  · have hempty : isAbsolute "" = false := by decide
    simp [join, hbase, hrelative, hempty]
  · obtain ⟨c, cs, hcs⟩ := List.exists_cons_of_ne_nil (mt String.toList_eq_nil_iff.mp hbase)
    unfold join
    rw [hrelative, Bool.false_or, if_neg (by simpa using hbase)]
    split <;> simp [isAbsolute, hcs]

theorem key_join (hloud : isSilent name = false) (h : '/' ∉ name.toList) :
    key (join base name) = key base ++ [name] := by
  rw [key, key, isAbsolute_join h, names_join hloud h]
  split <;> simp

theorem zero_not_mem_join (hbase : '\x00' ∉ base.toList) (h : '\x00' ∉ name.toList) :
    '\x00' ∉ (join base name).toList := by
  unfold join
  split
  · exact h
  · split <;> simp [hbase, h]

end Path

namespace Tree

/-- Names that lead down from a place, through directories, to what is there. -/
inductive Leads (t : Tree) : Place → List String → Node → Prop
  /-- No names lead anywhere else. -/
  | arrive {place : Place} {node : Node} (hnode : t.node? place = some node) :
    Leads t place [] node
  /-- The first name is that of an entry of a directory. -/
  | enter {place : Place} {name : String} {names : List String} {node : Node}
      (hdir : t.isDirectory place = true) (hname : isEntryName name = true)
      (h : Leads t (place ++ [name]) names node) : Leads t place (name :: names) node

variable {t t' : Tree} {here place : Place} {path name : String} {names : List String}
  {node : Node}

theorem leads_nil_iff : t.Leads place [] node ↔ t.node? place = some node := by
  constructor
  · rintro ⟨hnode⟩
    exact hnode
  · exact .arrive

theorem leads_cons_iff : t.Leads place (name :: names) node ↔
    t.isDirectory place = true ∧ isEntryName name = true ∧
      t.Leads (place ++ [name]) names node := by
  constructor
  · rintro ⟨⟩
    exact ⟨‹_›, ‹_›, ‹_›⟩
  · rintro ⟨hdir, hname, h⟩
    exact .enter hdir hname h

theorem Leads.isEntryName (h : t.Leads place names node) :
    ∀ name ∈ names, isEntryName name = true := by
  induction h with
  | arrive => simp
  | enter hdir hname h ih => exact List.forall_mem_cons.mpr ⟨hname, ih⟩

/-- Names lead on from where something is. -/
theorem Leads.node?_ne_none (h : t.Leads place names node) : t.node? place ≠ none := by
  cases h with
  | arrive hnode => simp [hnode]
  | enter hdir => simp [isDirectory_iff.mp hdir]

/-- The way to a directory begins at a directory. -/
theorem Leads.isDirectory (h : t.Leads place names .directory) : t.isDirectory place = true := by
  cases h with
  | arrive hnode => exact isDirectory_iff.mpr hnode
  | enter hdir => exact hdir

/-- There are names on the way from a directory to something else. -/
theorem Leads.ne_nil (h : t.Leads place names node) (hdir : t.isDirectory place = true)
    (hnode : node.isDirectory = false) : names ≠ [] := by
  rintro rfl
  obtain rfl := Option.some.inj ((leads_nil_iff.mp h).symm.trans (isDirectory_iff.mp hdir))
  cases hnode

section Opening

/-- A piece that stays in place leads nowhere else. -/
theorem Walks.eq_of_isSilent {links links' : Nat} {d : Place} {piece : String}
    (h : Walks t links here [piece] links' d) (hsilent : Path.isSilent piece = true) :
    here = d ∧ links = links' := by
  cases h with
  | stay _ _ h =>
    cases h
    exact ⟨rfl, rfl⟩
  | ascend => exact absurd hsilent (by decide)
  | follow _ hpiece | enter _ hpiece => simp [hpiece.loud] at hsilent

/-- A path leads to a directory, unless it is too long. -/
structure Opens (t : Tree) (here : Place) (path : String) (place : Place) : Prop where
  /-- A directory is there. -/
  isDirectory : t.isDirectory place = true
  /-- The pieces of the path lead there. -/
  walks : ∃ links, Walks t maxLinks (origin here path) (Path.pieces path) links place
  /-- The path has characters. -/
  ne_empty : path ≠ ""
  /-- None of them is zero. -/
  zeroless : '\x00' ∉ path.toList

theorem opens_of_locate (h : t.locate here path = .ok place) (hdir : t.isDirectory place = true) :
    t.Opens here path place := by
  unfold locate checkPath at h
  split at h
  · cases h
  · rename_i hzero
    split at h
    · cases h
    · rename_i hempty
      split at h
      · cases h
      · exact ⟨hdir, walk_eq_ok_iff.mp h, hempty, by simpa using hzero⟩

theorem Opens.locate (h : t.Opens here path place) (hs : path.utf8ByteSize ≤ maxPathBytes) :
    t.locate here path = .ok place := by
  rw [Tree.locate, checkPath, if_neg (by simpa using h.zeroless), if_neg h.ne_empty,
    if_neg (Nat.not_lt.mpr hs)]
  exact walk_eq_ok_iff.mpr h.walks

theorem Opens.locate_of_lt (h : t.Opens here path place) (hs : maxPathBytes < path.utf8ByteSize) :
    t.locate here path = .error .nameTooLong := by
  rw [Tree.locate, checkPath, if_neg (by simpa using h.zeroless), if_neg h.ne_empty, if_pos hs]
  rfl

/-- A path that leads to a directory leads to the directories in it as well. -/
theorem Opens.join (h : t.Opens here path place) (hname : Files.isEntryName name = true)
    (hdir : t.isDirectory (place ++ [name]) = true) :
    t.Opens here (Path.join path name) (place ++ [name]) := by
  obtain ⟨hpiece, hslash, hzero⟩ := isEntryName_iff.mp hname
  have horigin : origin here (Path.join path name) = origin here path := by
    rw [origin, origin, Path.isAbsolute_join hslash]
  have hstep : ∀ links, Walks t links place [name] links (place ++ [name]) := fun links =>
    .enter h.isDirectory hpiece (isDirectory_iff.mp hdir) (fun _ => Node.noConfusion) .arrive
  refine ⟨hdir, ?_, fun hempty => ?_, Path.zero_not_mem_join h.zeroless hzero⟩
  · obtain ⟨links, hwalks⟩ := h.walks
    rw [horigin]
    obtain hjoin | ⟨front, hpieces, hjoin⟩ := Path.pieces_join h.ne_empty hslash
    · exact ⟨links, hjoin ▸ hwalks.append (hstep links)⟩
    -- An empty last piece has led nowhere.
    · rw [hpieces] at hwalks
      obtain ⟨links', d, hfront, hlast⟩ := hwalks.exists_of_append
      obtain ⟨rfl, rfl⟩ := hlast.eq_of_isSilent (by decide)
      exact ⟨links', hjoin ▸ hfront.append (hstep links')⟩
  · have hlong := size_lt_join hname path
    rw [hempty, String.utf8ByteSize_empty] at hlong
    exact Nat.not_lt_zero _ hlong

end Opening

section Listing

theorem nodup_eraseDups (xs : List String) : xs.eraseDups.Nodup := by
  induction hn : xs.length using Nat.strongRecOn generalizing xs with
  | ind n ih =>
    cases xs with
    | nil => exact .nil
    | cons x xs =>
      rw [List.eraseDups_cons, List.nodup_cons, List.mem_eraseDups]
      have hlt := Nat.lt_succ_of_le (List.length_filter_le (fun y => !y == x) xs)
      exact ⟨by simp, ih _ (hn ▸ hlt) _ rfl⟩

theorem mem_namesAt_iff : name ∈ t.namesAt place ↔ t.node? (place ++ [name]) ≠ none := by
  have hlast : ∀ p : Place, p ≠ [] ∧ p.dropLast = place ∧ p.getLast? = some name ↔
      p = place ++ [name] := by
    intro p
    constructor
    · rintro ⟨-, rfl, hlast⟩
      exact (List.dropLast_append_getLast? name hlast).symm
    · rintro rfl
      simp
  rw [namesAt, List.mem_eraseDups, List.mem_filterMap, node?, if_neg (by simp)]
  simp only [ne_eq, Option.map_eq_none_iff, List.find?_eq_none, not_forall, decide_eq_true_eq,
    Decidable.not_not, exists_prop]
  refine exists_congr fun e => and_congr_right fun _ => ?_
  rw [← hlast e.1]
  constructor
  · intro h
    split at h
    · rename_i hplace
      exact ⟨fun hnil => by simp [hnil] at h, hplace, h⟩
    · cases h
  · rintro ⟨-, hplace, h⟩
    rw [if_pos hplace, h]

/-- Entries show what is in the directory at a place, each entry once. -/
structure Shows (t : Tree) (place : Place) {path : String} (entries : List (Listed path)) :
    Prop where
  /-- No name is shown twice. -/
  nodup : (entries.map (·.name)).Nodup
  /-- The names shown are those at which something is. -/
  names : ∀ name, name ∈ entries.map (·.name) ↔
    isEntryName name = true ∧ t.node? (place ++ [name]) ≠ none
  /-- Directories are told from everything else. -/
  isDirectory : ∀ e ∈ entries, e.isDirectory = t.isDirectory (place ++ [e.name])

/-- A directory is listed by every path to it that is not too long. -/
theorem Opens.exists_list (h : t.Opens here path place) (hs : path.utf8ByteSize ≤ maxPathBytes) :
    ∃ entries, t.list here path = .ok entries ∧ t.Shows place entries := by
  have hlocate := h.locate hs
  rw [list]
  split
  · rename_i hfault
    rw [hlocate] at hfault
    cases hfault
  · rename_i d hplace
    obtain rfl : place = d := Except.ok.inj (hlocate.symm.trans hplace)
    rw [if_pos h.isDirectory]
    have hshown : ∀ {a : String} {e : Listed path}, (if legal : isEntryName a = true then
        some (Listed.mk a (t.isDirectory (place ++ [a])) legal hs) else none) = some e →
        e.name = a ∧ e.isDirectory = t.isDirectory (place ++ [a]) := by
      intro a e he
      obtain ⟨_, he⟩ := Option.dite_none_right_eq_some.mp he
      obtain rfl := Option.some.inj he
      exact ⟨rfl, rfl⟩
    refine ⟨_, rfl, ?_, fun name => ?_, fun e he => ?_⟩
    · rw [List.map_filterMap]
      refine (nodup_eraseDups _).filterMap fun a b name ha hb => ?_
      obtain ⟨e, he, rfl⟩ := Option.map_eq_some_iff.mp ha
      obtain ⟨e', he', hname⟩ := Option.map_eq_some_iff.mp hb
      exact (hshown he).1.symm.trans (hname.symm.trans (hshown he').1)
    · simp only [List.mem_map, List.mem_filterMap, Option.dite_none_right_eq_some,
        Option.some.injEq, mem_namesAt_iff]
      constructor
      · rintro ⟨_, ⟨a, ha, hlegal, rfl⟩, rfl⟩
        exact ⟨hlegal, ha⟩
      · rintro ⟨hlegal, hnode⟩
        exact ⟨_, ⟨name, hnode, hlegal, rfl⟩, rfl⟩
    · obtain ⟨a, -, ha⟩ := List.mem_filterMap.mp he
      obtain ⟨hname, hdir⟩ := hshown ha
      rw [hname, hdir]

/-- No directory is listed by a path that is too long. -/
theorem Opens.list_of_lt (h : t.Opens here path place) (hs : maxPathBytes < path.utf8ByteSize) :
    t.list here path = .error .nameTooLong := by
  have hlocate := h.locate_of_lt hs
  rw [list]
  split
  · rename_i hfault
    rw [hlocate] at hfault
    rw [← Except.error.inj hfault]
  · rename_i hplace
    rw [hlocate] at hplace
    cases hplace

end Listing

section SameNodes

variable (hnodes : ∀ p, t'.node? p = t.node? p)

include hnodes

theorem isDirectory_congr (p : Place) : t'.isDirectory p = t.isDirectory p := by
  rw [isDirectory, isDirectory, hnodes]

/-- A walk goes the same way wherever the same is at each place. -/
theorem walk_congr (links : Nat) (here : Place) (pieces : List String) :
    t'.walk links here pieces = t.walk links here pieces := by
  fun_induction Tree.walk t links here pieces <;>
    simp [Tree.walk, isDirectory_congr hnodes, *]

theorem locate_congr (here : Place) (path : String) :
    t'.locate here path = t.locate here path := by
  rw [locate, locate, walk_congr hnodes]

theorem Leads.congr (h : Leads t place names node) : Leads t' place names node := by
  induction h with
  | arrive hnode => exact .arrive ((hnodes _).trans hnode)
  | enter hdir hname _ ih => exact .enter ((isDirectory_congr hnodes _).trans hdir) hname ih

end SameNodes

end Tree

end Safelist.Files
