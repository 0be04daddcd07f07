import Mathlib.Data.List.Basic
import Safelist.Files.Tree

/-!
# Ways through a tree

A walk goes from place to place, one piece of its path or one link at a time. It
looks at directories and links only, so a walk that ends at a directory goes the
same way in every tree that has these in the same places.
-/

namespace Safelist.Files.Tree

/-- A piece of a path that can be the name of an entry. -/
structure IsName (piece : String) : Prop where
  /-- It leads somewhere. -/
  loud : Path.isSilent piece = false
  /-- It does not go up. -/
  ne_up : piece ≠ Path.up
  /-- It is not too long. -/
  short : piece.utf8ByteSize ≤ maxNameBytes

/-- A walk that arrives: pieces of a path lead from a place to another one, and so many links
may be followed before and after. -/
inductive Walks (t : Tree) : Nat → Place → List String → Nat → Place → Prop
  /-- Nothing is left to walk. -/
  | arrive {links : Nat} {here : Place} : Walks t links here [] links here
  /-- The piece stays in place. -/
  | stay {links links' : Nat} {here d : Place} {piece : String} {pieces : List String}
      (hdir : t.isDirectory here = true) (hpiece : Path.isSilent piece = true)
      (h : Walks t links here pieces links' d) : Walks t links here (piece :: pieces) links' d
  /-- The piece goes up. -/
  | ascend {links links' : Nat} {here d : Place} {pieces : List String}
      (hdir : t.isDirectory here = true) (h : Walks t links here.dropLast pieces links' d) :
      Walks t links here (Path.up :: pieces) links' d
  /-- The piece is the name of a link, which is followed. -/
  | follow {links links' : Nat} {here d : Place} {piece target : String} {pieces : List String}
      (hdir : t.isDirectory here = true) (hpiece : IsName piece)
      (hnode : t.node? (here ++ [piece]) = some (.link target))
      (h : Walks t links (origin here target) (Path.pieces target ++ pieces) links' d) :
      Walks t (links + 1) here (piece :: pieces) links' d
  /-- The piece is the name of something else. -/
  | enter {links links' : Nat} {here d : Place} {piece : String} {pieces : List String}
      {node : Node} (hdir : t.isDirectory here = true) (hpiece : IsName piece)
      (hnode : t.node? (here ++ [piece]) = some node) (hlink : ∀ target, node ≠ .link target)
      (h : Walks t links (here ++ [piece]) pieces links' d) :
      Walks t links here (piece :: pieces) links' d

variable {t t' : Tree} {links links' : Nat} {here d p q : Place} {name : String}
  {pieces more way : List String}

section Nodes

theorem node?_erase_self (h : p ≠ []) : (t.erase p).node? p = none := by
  simp [node?, erase, h]

theorem node?_erase_of_ne (h : q ≠ p) : (t.erase p).node? q = t.node? q := by
  have hfind : (t.entries.filter (·.1 ≠ p)).find? (·.1 = q) = t.entries.find? (·.1 = q) := by
    rw [List.find?_filter]
    congr 1
    funext e
    by_cases he : e.1 = q <;> simp [he, h]
  simp only [node?, erase, hfind]

theorem node?_set_self (h : p ≠ []) (node : Node) : (t.set p node).node? p = some node := by
  have hfind : (t.entries.filter (·.1 ≠ p)).find? (·.1 = p) = none := by simp
  simp only [node?, set, erase, if_neg h, List.find?_append, hfind]
  simp

theorem node?_set_of_ne (h : q ≠ p) (node : Node) : (t.set p node).node? q = t.node? q := by
  have hlast : [(p, node)].find? (·.1 = q) = none := by simp [h.symm]
  have hset : (t.set p node).node? q = (t.erase p).node? q := by
    simp only [node?, set, List.find?_append, hlast, Option.or_none]
  rw [hset, node?_erase_of_ne h]

theorem isDirectory_iff : t.isDirectory p = true ↔ t.node? p = some .directory := by
  rw [isDirectory]
  cases t.node? p with
  | none => simp
  | some node => cases node <;> simp [Node.isDirectory]

end Nodes

/-- What a walk returns is where it arrives. -/
theorem walk_eq_ok_iff :
    t.walk links here pieces = .ok d ↔ ∃ links', Walks t links here pieces links' d := by
  constructor
  · intro hw
    -- Every case in which the walk goes on is a constructor; the others return a fault.
    fun_induction Tree.walk t links here pieces with
    | case1 links here =>
      cases hw
      exact ⟨_, .arrive⟩
    | case3 links here piece rest hdir hsilent ih =>
      obtain ⟨_, h⟩ := ih hw
      exact ⟨_, .stay (by simpa using hdir) hsilent h⟩
    | case4 links here rest hdir _ ih =>
      obtain ⟨_, h⟩ := ih hw
      exact ⟨_, .ascend (by simpa using hdir) h⟩
    | case8 here piece rest hdir hloud hup hshort target hnode links ih =>
      obtain ⟨_, h⟩ := ih hw
      exact ⟨_, .follow (by simpa using hdir) ⟨by simpa using hloud, hup, by simpa using hshort⟩
        hnode h⟩
    | case9 links here piece rest hdir hloud hup hshort node hlink hnode ih =>
      obtain ⟨_, h⟩ := ih hw
      exact ⟨_, .enter (by simpa using hdir) ⟨by simpa using hloud, hup, by simpa using hshort⟩
        hnode hlink h⟩
    | case2 | case5 | case6 | case7 => cases hw
  · rintro ⟨links', h⟩
    induction h with
    | arrive => simp [Tree.walk]
    | stay hdir hpiece _ ih => simpa [Tree.walk, hdir, hpiece] using ih
    | ascend hdir _ ih =>
      have hup : Path.isSilent Path.up = false := by decide
      simpa [Tree.walk, hdir, hup] using ih
    | follow hdir hpiece hnode _ ih =>
      simpa [Tree.walk, hdir, hpiece.loud, hpiece.ne_up, Nat.not_lt.mpr hpiece.short, hnode]
        using ih
    | @enter _ _ _ _ _ _ node hdir hpiece hnode hlink _ ih =>
      cases node with
      | link target => exact absurd rfl (hlink target)
      | file | directory =>
        simpa [Tree.walk, hdir, hpiece.loud, hpiece.ne_up, Nat.not_lt.mpr hpiece.short, hnode]
        using ih

/-- No walk goes over a name where nothing is. -/
theorem not_walks_cons (hloud : Path.isSilent name = false) (hup : name ≠ Path.up)
    (hnode : t.node? (here ++ [name]) = none) : ¬Walks t links here (name :: pieces) links' d := by
  intro h
  cases h with
  | stay _ hsilent => simp [hloud] at hsilent
  | ascend => exact hup rfl
  | follow _ _ h | enter _ _ h => simp [hnode] at h

/-- A walk goes on from where another one has arrived. -/
theorem Walks.append {links'' : Nat} {e : Place} (h : Walks t links here pieces links' d)
    (h' : Walks t links' d more links'' e) : Walks t links here (pieces ++ more) links'' e := by
  induction h with
  | arrive => exact h'
  | stay hdir hpiece _ ih => exact .stay hdir hpiece (ih h')
  | ascend hdir _ ih => exact .ascend hdir (ih h')
  | follow hdir hpiece hnode _ ih =>
    refine .follow hdir hpiece hnode ?_
    rw [List.append_eq, ← List.append_assoc]
    exact ih h'
  | enter hdir hpiece hnode hlink _ ih => exact .enter hdir hpiece hnode hlink (ih h')

/-- A walk along two parts of a path passes where the first part leads. -/
theorem Walks.exists_of_append {links'' : Nat} {e : Place}
    (h : Walks t links here (pieces ++ more) links'' e) :
    ∃ links' d, Walks t links here pieces links' d ∧ Walks t links' d more links'' e := by
  generalize hall : pieces ++ more = all at h
  induction h generalizing pieces with
  | arrive =>
    obtain ⟨rfl, rfl⟩ := List.append_eq_nil_iff.mp hall
    exact ⟨_, _, .arrive, .arrive⟩
  | stay hdir hpiece hrest ih =>
    obtain ⟨rfl, rfl⟩ | ⟨pieces, rfl, rfl⟩ := List.append_eq_cons_iff.mp hall
    · exact ⟨_, _, .arrive, .stay hdir hpiece hrest⟩
    · obtain ⟨_, _, h, h'⟩ := ih rfl
      exact ⟨_, _, .stay hdir hpiece h, h'⟩
  | ascend hdir hrest ih =>
    obtain ⟨rfl, rfl⟩ | ⟨pieces, rfl, rfl⟩ := List.append_eq_cons_iff.mp hall
    · exact ⟨_, _, .arrive, .ascend hdir hrest⟩
    · obtain ⟨_, _, h, h'⟩ := ih rfl
      exact ⟨_, _, .ascend hdir h, h'⟩
  | follow hdir hpiece hnode hrest ih =>
    obtain ⟨rfl, rfl⟩ | ⟨pieces, rfl, rfl⟩ := List.append_eq_cons_iff.mp hall
    · exact ⟨_, _, .arrive, .follow hdir hpiece hnode hrest⟩
    -- The target of the link comes before what is left of the first part.
    · obtain ⟨_, _, h, h'⟩ := ih (List.append_assoc _ _ _)
      exact ⟨_, _, .follow hdir hpiece hnode h, h'⟩
  | enter hdir hpiece hnode hlink hrest ih =>
    obtain ⟨rfl, rfl⟩ | ⟨pieces, rfl, rfl⟩ := List.append_eq_cons_iff.mp hall
    · exact ⟨_, _, .arrive, .enter hdir hpiece hnode hlink hrest⟩
    · obtain ⟨_, _, h, h'⟩ := ih rfl
      exact ⟨_, _, .enter hdir hpiece hnode hlink h, h'⟩

/-- The directories and links of a tree are in another one too. -/
def KeepsWays (t t' : Tree) : Prop :=
  ∀ p node, t.node? p = some node → (∀ bytes, node ≠ .file bytes) → t'.node? p = some node

theorem KeepsWays.to_directory (h : t.KeepsWays t') (hd : t.isDirectory p = true) :
    t'.isDirectory p = true :=
  isDirectory_iff.mpr (h p _ (isDirectory_iff.mp hd) fun _ => Node.noConfusion)

/-- A walk begins at a directory, unless it arrives at once. -/
theorem Walks.isDirectory (h : Walks t links here pieces links' d) (hd : t.isDirectory d = true) :
    t.isDirectory here = true := by
  cases h with
  | arrive => exact hd
  | stay hdir | ascend hdir | follow hdir | enter hdir => exact hdir

/-- A walk that ends at a directory goes the same way wherever the ways are kept. -/
theorem Walks.keep (hways : t.KeepsWays t') (h : Walks t links here pieces links' d)
    (hd : t.isDirectory d = true) : Walks t' links here pieces links' d := by
  induction h with
  | arrive => exact .arrive
  | stay hdir hpiece _ ih => exact .stay (hways.to_directory hdir) hpiece (ih hd)
  | ascend hdir _ ih => exact .ascend (hways.to_directory hdir) (ih hd)
  | follow hdir hpiece hnode _ ih =>
    exact .follow (hways.to_directory hdir) hpiece (hways _ _ hnode fun _ => Node.noConfusion)
      (ih hd)
  | enter hdir hpiece hnode hlink h ih =>
    -- What is entered is a directory, since the walk goes on there or ends there.
    have hentered := isDirectory_iff.mp (h.isDirectory hd)
    have hnode' := hways _ _ hentered fun _ => Node.noConfusion
    exact .enter (hways.to_directory hdir) hpiece hnode' (fun _ => Node.noConfusion) (ih hd)

/-- What landing does at a name depends on what is there. -/
theorem land_of_isName {piece : String} (hdir : t.isDirectory here = true) (hpiece : IsName piece)
    (hrest : ¬(!pieces.isEmpty && pieces.all (· = ""))) :
    t.land links here (piece :: pieces) =
      match t.node? (here ++ [piece]) with
      | none => if pieces.isEmpty then .ok (here ++ [piece]) else .error .notFound
      | some (.link target) =>
        match links with
        | 0 => .error .tooManyLinks
        | links + 1 => t.land links (origin here target) (Path.pieces target ++ pieces)
      | some (.file _) => if pieces.isEmpty then .ok (here ++ [piece]) else .error .notADirectory
      | some .directory => t.land links (here ++ [piece]) pieces := by
  rw [land, if_neg (by simp [hdir]), if_neg (by simp [hpiece.loud]), if_neg hpiece.ne_up,
    if_neg hrest]
  exact if_neg (Nat.not_lt.mpr hpiece.short)

/-- Landing at a name behind a way goes on from where walking the way leads. -/
theorem Walks.land_append (h : Walks t links here way links' d) (hd : t.isDirectory d = true)
    (hname : name ≠ "") : t.land links here (way ++ [name]) = t.land links' d [name] := by
  have hrest (way : List String) :
      ¬(!(way ++ [name]).isEmpty && (way ++ [name]).all (· = "")) := by
    simp [hname]
  induction h with
  | arrive => rfl
  | stay hdir hpiece _ ih => simpa [Tree.land, hdir, hpiece] using ih hd
  | ascend hdir _ ih =>
    have hup : Path.isSilent Path.up = false := by decide
    simpa [Tree.land, hdir, hup] using ih hd
  | follow hdir hpiece hnode _ ih =>
    rw [List.cons_append, land_of_isName hdir hpiece (hrest _), hnode, ← ih hd, List.append_assoc]
  | enter hdir hpiece hnode hlink h ih =>
    have hentered := isDirectory_iff.mp (h.isDirectory hd)
    rw [List.cons_append, land_of_isName hdir hpiece (hrest _), hentered]
    exact ih hd

/-- Whatever is landed at behind a way, walking the way leads somewhere. -/
theorem exists_of_land (h : t.land links here (way ++ [name]) = .ok p) :
    ∃ links' d, Walks t links here way links' d ∧ t.land links' d [name] = .ok p := by
  generalize hall : way ++ [name] = pieces at h
  induction links, here, pieces using Tree.land.induct t generalizing way with
  | case1 => simp at hall
  | case2 links here piece rest hdir =>
    rw [Tree.land, if_pos hdir] at h
    cases h
  | case3 links here piece rest hdir hsilent ih =>
    obtain ⟨rfl, hr⟩ | ⟨way, rfl, rfl⟩ := List.append_eq_cons_iff.mp hall
    · exact ⟨_, _, .arrive, hr ▸ h⟩
    · rw [Tree.land, if_neg hdir, if_pos hsilent] at h
      obtain ⟨_, _, hw, hl⟩ := ih rfl h
      exact ⟨_, _, .stay (by simpa using hdir) hsilent hw, hl⟩
  | case4 links here rest hdir hloud ih =>
    obtain ⟨rfl, hr⟩ | ⟨way, rfl, rfl⟩ := List.append_eq_cons_iff.mp hall
    · exact ⟨_, _, .arrive, hr ▸ h⟩
    · rw [Tree.land, if_neg hdir, if_neg hloud, if_pos rfl] at h
      obtain ⟨_, _, hw, hl⟩ := ih rfl h
      exact ⟨_, _, .ascend (by simpa using hdir) hw, hl⟩
  | case5 links here piece rest hdir hloud hup hrest =>
    rw [Tree.land, if_neg hdir, if_neg hloud, if_neg hup, if_pos hrest] at h
    cases h
  | case6 links here piece rest hdir hloud hup hrest hlong =>
    rw [Tree.land, if_neg hdir, if_neg hloud, if_neg hup, if_neg hrest, if_pos hlong] at h
    cases h
  | case7 links here piece rest hdir hloud hup hrest hshort hnode hempty
  | case11 links here piece rest hdir hloud hup hrest hshort bytes hnode hempty =>
    -- The name is all that is left, so nothing is left of the way.
    rw [List.isEmpty_iff.mp hempty] at hall h
    obtain ⟨rfl, hr⟩ | ⟨way, rfl, hr⟩ := List.append_eq_cons_iff.mp hall
    · exact ⟨_, _, .arrive, hr ▸ h⟩
    · simp at hr
  | case8 links here piece rest hdir hloud hup hrest hshort hnode hmore
  | case12 links here piece rest hdir hloud hup hrest hshort bytes hnode hmore =>
    have hpiece : IsName piece := ⟨by simpa using hloud, hup, Nat.not_lt.mp hshort⟩
    rw [land_of_isName (by simpa using hdir) hpiece hrest, hnode] at h
    simp only [hmore, if_false, reduceCtorEq] at h
  | case9 here piece rest hdir hloud hup hrest hshort target hnode =>
    have hpiece : IsName piece := ⟨by simpa using hloud, hup, Nat.not_lt.mp hshort⟩
    rw [land_of_isName (by simpa using hdir) hpiece hrest, hnode] at h
    cases h
  | case10 here piece rest hdir hloud hup hrest hshort target hnode links ih =>
    have hpiece : IsName piece := ⟨by simpa using hloud, hup, Nat.not_lt.mp hshort⟩
    obtain ⟨rfl, hr⟩ | ⟨way, rfl, rfl⟩ := List.append_eq_cons_iff.mp hall
    · exact ⟨_, _, .arrive, hr ▸ h⟩
    · rw [land_of_isName (by simpa using hdir) hpiece hrest, hnode] at h
      obtain ⟨_, _, hw, hl⟩ := ih (List.append_assoc _ _ _) h
      exact ⟨_, _, .follow (by simpa using hdir) hpiece hnode hw, hl⟩
  | case13 links here piece rest hdir hloud hup hrest hshort hnode ih =>
    have hpiece : IsName piece := ⟨by simpa using hloud, hup, Nat.not_lt.mp hshort⟩
    obtain ⟨rfl, hr⟩ | ⟨way, rfl, rfl⟩ := List.append_eq_cons_iff.mp hall
    · exact ⟨_, _, .arrive, hr ▸ h⟩
    · rw [land_of_isName (by simpa using hdir) hpiece hrest, hnode] at h
      obtain ⟨_, _, hw, hl⟩ := ih rfl h
      exact ⟨_, _, .enter (by simpa using hdir) hpiece hnode (fun _ => Node.noConfusion) hw, hl⟩

end Safelist.Files.Tree
