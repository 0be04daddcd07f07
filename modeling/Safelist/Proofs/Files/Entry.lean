import Mathlib.Data.List.Basic
import Safelist.Proofs.Files.Sibling
import Safelist.Proofs.Files.Walking
import Safelist.Proofs.Outcome

/-!
# Entries that paths name

A path that ends in a name names an entry of the directory that the way before the
name leads to, whatever is there. Making, moving and removing a file change the
entries that their paths name and no others.
-/

namespace Safelist.Files.Tree

open Files.Path (EndsIn)

/-- The place of the entry that a path names. A link there is not followed. -/
def named? (t : Tree) (here : Place) (path : String) : Option Place :=
  match t.final here path with
  | .ok (.entry directory name _) => some (directory ++ [name])
  | _ => none

/-- A file can be made at a place, or is there already. -/
def IsVacant (t : Tree) (p : Place) : Prop :=
  ∀ node, t.node? p = some node → ∃ bytes, node = .file bytes

variable {t t' : Tree} {here d p q : Place} {path name : String} {way : List String}

theorem named?_ne_nil (h : t.named? here path = some p) : p ≠ [] := by
  rw [named?] at h
  split at h
  · rw [← Option.some.inj h]
    simp
  · cases h

/-- What a path that ends in a name comes to is an entry of the directory before the name. -/
theorem final_eq_ok_iff (he : EndsIn path way name) {r : Final} :
    t.final here path = .ok r ↔ checkPath path = .ok () ∧ ∃ d,
      t.walk maxLinks (origin here path) way = .ok d ∧ t.isDirectory d = true ∧
        name.utf8ByteSize ≤ maxNameBytes ∧ r = .entry d name false := by
  have hloud := he.loud
  simp only [Path.isSilent, Bool.or_eq_false_iff, decide_eq_false_iff_not] at hloud
  have hkept : ((Path.pieces path).reverse.dropWhile (· = "")).reverse = way ++ [name] := by
    rw [he.pieces, List.reverse_append, List.reverse_singleton, List.singleton_append,
      List.dropWhile_cons_of_neg (by simp [hloud.1])]
    simp
  simp only [final, hkept, List.getLast?_concat, List.dropLast_concat]
  rw [check_bind_eq_ok_iff, bind_eq_ok_iff]
  refine and_congr_right fun _ => exists_congr fun d => and_congr_right fun _ => ?_
  rw [refuse_bind_eq_ok_iff]
  refine and_congr (by simp) ?_
  rw [if_neg (by simp [hloud.2, he.ne_up]), refuse_eq_ok_iff, Nat.not_lt, he.pieces]
  simp [pure, Except.pure, eq_comm]

/-- A path that names an entry and has no slashes at its end ends in a name. -/
theorem exists_endsIn (h : t.final here path = .ok (.entry d name false)) :
    ∃ way, EndsIn path way name := by
  obtain ⟨-, h⟩ := check_bind_eq_ok_iff.mp h
  simp only at h
  set kept := ((Path.pieces path).reverse.dropWhile (· = "")).reverse with hkept
  split at h
  · cases h
  · rename_i last hlast
    obtain ⟨d', -, h⟩ := bind_eq_ok_iff.mp h
    obtain ⟨-, h⟩ := refuse_bind_eq_ok_iff.mp h
    split at h
    · cases h
    · rename_i hname
      obtain ⟨-, h⟩ := refuse_eq_ok_iff.mp h
      obtain ⟨rfl, hlength⟩ : last = name ∧ ¬kept.length < (Path.pieces path).length := by
        injection h with h
        injection h with _ hlast hslashed
        exact ⟨hlast, of_decide_eq_false hslashed⟩
      have hprefix : kept <+: Path.pieces path := by
        rw [← List.reverse_suffix, hkept, List.reverse_reverse]
        exact List.dropWhile_suffix _
      have hall : kept = Path.pieces path := hprefix.eq_of_length_le (Nat.not_lt.mp hlength)
      have hempty : last ≠ "" := by
        have hhead := List.head?_dropWhile_not (· = "") (Path.pieces path).reverse
        rw [hkept, List.getLast?_reverse] at hlast
        simpa [hlast] using hhead
      simp only [Bool.or_eq_true, decide_eq_true_eq, not_or] at hname
      refine ⟨kept.dropLast, ?_, by simp [Path.isSilent, hempty, hname.1], hname.2⟩
      rw [← hall, List.dropLast_append_getLast? last hlast]

/-- A path that ends in a name names the entry that its last piece is. -/
theorem named?_eq_some_iff_final (he : EndsIn path way name) : t.named? here path = some p ↔
    ∃ d, t.final here path = .ok (.entry d name false) ∧ p = d ++ [name] := by
  rw [named?]
  constructor
  · intro h
    split at h
    · rename_i hr
      obtain ⟨-, d, -, -, -, hd⟩ := (final_eq_ok_iff he).mp hr
      injection hd with hd hname hslashed
      subst hname hslashed
      exact ⟨_, hr, (Option.some.inj h).symm⟩
    · cases h
  · rintro ⟨d, hd, rfl⟩
    rw [hd]

/-- A path names an entry when its way leads to a directory and its name is not too long. -/
theorem named?_eq_some_iff (he : EndsIn path way name) :
    t.named? here path = some p ↔ checkPath path = .ok () ∧ IsName name ∧ ∃ d links,
      p = d ++ [name] ∧ t.isDirectory d = true ∧
        Walks t maxLinks (origin here path) way links d := by
  simp only [named?_eq_some_iff_final he, final_eq_ok_iff he, walk_eq_ok_iff]
  constructor
  · rintro ⟨d, ⟨hcheck, d', ⟨links, hw⟩, hdir, hshort, hd⟩, rfl⟩
    injection hd with hd
    subst hd
    exact ⟨hcheck, ⟨he.loud, he.ne_up, hshort⟩, d, links, rfl, hdir, hw⟩
  · rintro ⟨hcheck, hname, d, links, rfl, hdir, hw⟩
    exact ⟨d, ⟨hcheck, d, ⟨links, hw⟩, hdir, hname.short, rfl⟩, rfl⟩

/-- Where a file is put, no way has led on. -/
theorem keepsWays_set_file (h : t.IsVacant p) (bytes : ByteArray) :
    t.KeepsWays (t.set p (.file bytes)) := by
  intro q node hnode hway
  have hq : q ≠ p := by
    rintro rfl
    obtain ⟨bytes, hbytes⟩ := h _ hnode
    exact hway bytes hbytes
  rw [node?_set_of_ne hq, hnode]

/-- Where a file is put, no way leads on. -/
theorem set_file_keepsWays (h : p ≠ []) (bytes : ByteArray) :
    (t.set p (.file bytes)).KeepsWays t := by
  intro q node hnode hway
  have hq : q ≠ p := by
    rintro rfl
    rw [node?_set_self h] at hnode
    exact hway bytes (Option.some.inj hnode).symm
  rw [← node?_set_of_ne hq, hnode]

/-- Where an entry is taken away, no way leads on. -/
theorem erase_keepsWays (h : p ≠ []) : (t.erase p).KeepsWays t := by
  intro q node hnode _
  have hq : q ≠ p := by
    rintro rfl
    rw [node?_erase_self h] at hnode
    cases hnode
  rwa [node?_erase_of_ne hq] at hnode

/-- A path names the same entry wherever the ways are kept. -/
theorem KeepsWays.named?_eq (h : t.KeepsWays t') (he : EndsIn path way name)
    (hp : t.named? here path = some p) : t'.named? here path = some p := by
  obtain ⟨hcheck, hname, d, links, hd, hdir, hw⟩ := (named?_eq_some_iff he).mp hp
  exact (named?_eq_some_iff he).mpr
    ⟨hcheck, hname, d, links, hd, h.to_directory hdir, hw.keep h hdir⟩

/-- A file lands at its name where there is room for it. -/
theorem land_name {links : Nat} (hdir : t.isDirectory d = true) (hname : IsName name)
    (hfree : t.IsVacant (d ++ [name])) : t.land links d [name] = .ok (d ++ [name]) := by
  rw [land_of_isName hdir hname (by simp)]
  cases hnode : t.node? (d ++ [name]) with
  | none => rfl
  | some node =>
    obtain ⟨bytes, rfl⟩ := hfree _ hnode
    rfl

/-- Landing at a name needs a directory. -/
theorem land_name_eq_ok {links : Nat} (hloud : Path.isSilent name = false) (hup : name ≠ Path.up)
    (h : t.land links d [name] = .ok p) :
    t.isDirectory d = true ∧ IsName name ∧ (t.IsVacant (d ++ [name]) → p = d ++ [name]) := by
  have hland := h
  rw [land] at h
  split at h
  · cases h
  · rename_i hdir
    simp only [hloud, Bool.false_eq_true, if_false, List.isEmpty_nil, Bool.not_true,
      Bool.false_and] at h
    split at h
    · cases h
    · rename_i hshort
      have hname : IsName name := ⟨hloud, hup, Nat.not_lt.mp hshort⟩
      have hdirectory : t.isDirectory d = true := by simpa using hdir
      refine ⟨hdirectory, hname, fun hfree => ?_⟩
      exact Except.ok.inj (hland.symm.trans (land_name hdirectory hname hfree))

/-- Something that is there already where a file lands is a file. -/
theorem isVacant_of_land {links : Nat} {pieces : List String}
    (h : t.land links here pieces = .ok p) : t.IsVacant p ∧ p ≠ [] := by
  fun_induction Tree.land t links here pieces with
  | case3 links here piece rest hdir hsilent ih => exact ih h
  | case4 links here rest hdir hloud ih => exact ih h
  | case7 links here piece rest hdir hloud hup hrest hshort hnode hempty =>
    cases h
    refine ⟨fun node hn => ?_, by simp⟩
    rw [hnode] at hn
    cases hn
  | case10 here piece rest hdir hloud hup hrest hshort target hnode links ih => exact ih h
  | case11 links here piece rest hdir hloud hup hrest hshort bytes hnode hempty =>
    cases h
    refine ⟨fun node hn => ⟨bytes, ?_⟩, by simp⟩
    exact Option.some.inj (hn.symm.trans hnode)
  | case13 links here piece rest hdir hloud hup hrest hshort hnode ih => exact ih h
  | case1 | case2 | case5 | case6 | case8 | case9 | case12 => cases h

/-- Where a file is made for a path, all links followed. -/
def landed (t : Tree) (here : Place) (path : String) : Except Fault Place := do
  checkPath path
  t.land maxLinks (origin here path) (Path.pieces path)

/-- Making a file puts it where it lands. -/
theorem create_eq (bytes : ByteArray) : t.create here path bytes =
    (t.landed here path).map fun p => t.set p (.file bytes) := by
  rw [create, landed]
  cases checkPath path with
  | error fault => rfl
  | ok => cases t.land maxLinks (origin here path) (Path.pieces path) <;> rfl

/-- There is room for a file where it lands. -/
theorem isVacant_of_landed (h : t.landed here path = .ok p) : t.IsVacant p ∧ p ≠ [] :=
  isVacant_of_land (check_bind_eq_ok_iff.mp h).2

/-- A path by which a file is made names an entry, and the file lands behind it. -/
theorem exists_named?_of_landed (he : EndsIn path way name) (h : t.landed here path = .ok p) :
    ∃ d links, t.named? here path = some (d ++ [name]) ∧ t.land links d [name] = .ok p := by
  obtain ⟨hcheck, hl⟩ := check_bind_eq_ok_iff.mp h
  rw [he.pieces] at hl
  obtain ⟨links, d, hw, hl⟩ := exists_of_land hl
  obtain ⟨hdir, hname, -⟩ := land_name_eq_ok he.loud he.ne_up hl
  exact ⟨d, links, (named?_eq_some_iff he).mpr ⟨hcheck, hname, d, links, rfl, hdir, hw⟩, hl⟩

/-- Where no link is at the entry that a path names, a file lands at the entry. -/
theorem named?_of_landed (he : EndsIn path way name) (h : t.landed here path = .ok p)
    (hlink : ∀ q target, t.named? here path = some q → t.node? q ≠ some (.link target)) :
    t.named? here path = some p := by
  obtain ⟨d, links, hentry, hl⟩ := exists_named?_of_landed he h
  obtain ⟨hdir, hname, hp⟩ := land_name_eq_ok he.loud he.ne_up hl
  rw [hentry, hp]
  intro node hnode
  cases node with
  | file bytes => exact ⟨bytes, rfl⟩
  | link target => exact absurd hnode (hlink _ target hentry)
  | directory =>
    -- Behind a directory nothing is left to land at.
    rw [land_of_isName hdir hname (by simp), hnode] at hl
    simp only [land] at hl
    cases hl

/-- A file can be made at an entry where there is room for it. -/
theorem create_eq_ok (he : EndsIn path way name) (hp : t.named? here path = some p)
    (hfree : t.IsVacant p) (bytes : ByteArray) :
    t.create here path bytes = .ok (t.set p (.file bytes)) := by
  obtain ⟨hcheck, hname, d, links, rfl, hdir, hw⟩ := (named?_eq_some_iff he).mp hp
  have hland : t.land maxLinks (origin here path) (Path.pieces path) = .ok (d ++ [name]) := by
    rw [he.pieces, hw.land_append hdir (by rintro rfl; simpa [Path.isSilent] using he.loud)]
    exact land_name hdir hname hfree
  simp only [create, hcheck, hland, bind, Except.bind, pure, Except.pure]

/-- A file made where there is room for one is the entry that its path names. -/
theorem exists_of_create {bytes : ByteArray} (he : EndsIn path way name)
    (hfree : ∀ p, t.named? here path = some p → t.IsVacant p)
    (h : t.create here path bytes = .ok t') :
    ∃ p, t.named? here path = some p ∧ t' = t.set p (.file bytes) := by
  rw [create_eq] at h
  cases hl : t.landed here path with
  | error fault => simp [hl, Except.map] at h
  | ok p =>
    rw [hl] at h
    have hlink : ∀ q target, t.named? here path = some q → t.node? q ≠ some (.link target) := by
      intro q target hq hnode
      obtain ⟨bytes, hbytes⟩ := hfree q hq _ hnode
      cases hbytes
    exact ⟨p, named?_of_landed he hl hlink, (Except.ok.inj h).symm⟩

/-- Removing a file changes nothing but the entry that its path names. -/
theorem node?_remove_of_ne (h : t.named? here path ≠ some q) :
    ((t.remove here path).toOption.getD t).node? q = t.node? q := by
  cases hr : t.remove here path with
  | error fault => rfl
  | ok t' =>
    obtain ⟨final, hfinal, hr⟩ := bind_eq_ok_iff.mp hr
    cases final with
    | itself => cases hr
    | entry directory name slashed =>
      have hentry : t.named? here path = some (directory ++ [name]) := by rw [named?, hfinal]
      have hne : q ≠ directory ++ [name] := fun he => h (he ▸ hentry)
      simp only at hr
      split at hr
      · cases hr
      · cases hr
      · obtain ⟨-, hr⟩ := refuse_eq_ok_iff.mp hr
        cases hr
        exact node?_erase_of_ne hne

/-- Removing a file takes away the entry that its path names and nothing else. -/
theorem node?_remove (he : EndsIn path way name)
    (hfree : ∀ p, t.named? here path = some p → t.IsVacant p) (q : Place) :
    ((t.remove here path).toOption.getD t).node? q =
      if t.named? here path = some q then none else t.node? q := by
  split
  · rename_i hq
    obtain ⟨d, hfinal, rfl⟩ := (named?_eq_some_iff_final he).mp hq
    cases hnode : t.node? (d ++ [name]) with
    | none =>
      have hremove : t.remove here path = .error .notFound := by
        simp only [remove, hfinal, bind, Except.bind, hnode]
        rfl
      rw [hremove]
      exact hnode
    | some node =>
      obtain ⟨bytes, rfl⟩ := hfree _ hq _ hnode
      have hremove : t.remove here path = .ok (t.erase (d ++ [name])) := by
        simp only [remove, hfinal, bind, Except.bind, hnode]
        rfl
      rw [hremove]
      exact node?_erase_self (named?_ne_nil hq)
  · rename_i hq
    exact node?_remove_of_ne hq

/-- A file or a link can be moved over an entry that is not a directory. -/
theorem move_eq_ok {source target name' : String} {way' : List String} {node : Node}
    (hs : EndsIn source way name) (ht : EndsIn target way' name')
    (hp : t.named? here source = some p) (hq : t.named? here target = some q)
    (hnode : t.node? p = some node) (hmoves : node ≠ .directory)
    (hdir : t.isDirectory q = false) :
    t.move here source target = .ok ((t.erase p).set q node) := by
  obtain ⟨d, hstart, rfl⟩ := (named?_eq_some_iff_final hs).mp hp
  obtain ⟨d', hgoal, rfl⟩ := (named?_eq_some_iff_final ht).mp hq
  cases node with
  | directory => exact absurd rfl hmoves
  | file | link => simp [move, hstart, hgoal, hnode, hdir, bind, Except.bind, pure, Except.pure]

/-- What is moved becomes the entry that the target names. -/
theorem exists_of_move {source target : String} (h : t.move here source target = .ok t') :
    ∃ p q node, t.named? here source = some p ∧ t.named? here target = some q ∧
      (∃ way name, EndsIn target way name) ∧ t.node? p = some node ∧ t.isDirectory q = false ∧
        t' = (t.erase p).set q node := by
  obtain ⟨start, hstart, h⟩ := bind_eq_ok_iff.mp h
  obtain ⟨goal, hgoal, h⟩ := bind_eq_ok_iff.mp h
  cases start with
  | itself => cases h
  | entry outOf oldName oldSlashed =>
    cases goal with
    | itself => cases h
    | entry into newName newSlashed =>
      simp only at h
      split at h
      · cases h
      · cases h
      · rename_i node _ hnode
        obtain ⟨hslashed, hrest⟩ := refuse_bind_eq_ok_iff.mp h
        obtain ⟨hdir, hmoved⟩ := refuse_bind_eq_ok_iff.mp hrest
        have hbare : oldSlashed = false ∧ newSlashed = false := by simpa using hslashed
        obtain ⟨way, hway⟩ := exists_endsIn (hbare.2 ▸ hgoal)
        exact ⟨_, _, node, by rw [named?, hstart], by rw [named?, hgoal], ⟨way, newName, hway⟩,
          hnode, by simpa using hdir, (Except.ok.inj hmoved).symm⟩

/-- A path leads to the entry that it names when a file is there. -/
theorem locate_eq_of_named? {bytes : ByteArray} (he : EndsIn path way name)
    (hp : t.named? here path = some p) (hnode : t.node? p = some (.file bytes)) :
    t.locate here path = .ok p := by
  obtain ⟨hcheck, hname, d, links, rfl, hdir, hw⟩ := (named?_eq_some_iff he).mp hp
  have hlast : Walks t links d [name] links (d ++ [name]) :=
    .enter hdir hname hnode (fun _ => Node.noConfusion) .arrive
  rw [locate, check_bind_eq_ok_iff, he.pieces]
  exact ⟨hcheck, walk_eq_ok_iff.mpr ⟨links, hw.append hlast⟩⟩

/-- The text of a file is read by a path that leads to it. -/
theorem readText_eq_of_locate {text : String} (hpath : t.locate here path = .ok p)
    (hnode : t.node? p = some (.file text.toUTF8)) : t.readText here path = .ok text := by
  have htext : String.fromUTF8? text.toUTF8 = some text := by
    simp [String.fromUTF8?, String.fromUTF8, text.isValidUTF8]
  simp only [readText, hpath, bind, Except.bind, hnode, htext, pure, Except.pure]

/-- A path that leads anywhere names an entry. -/
theorem exists_named?_of_locate (he : EndsIn path way name) (h : t.locate here path = .ok q) :
    ∃ p, t.named? here path = some p := by
  rw [locate, check_bind_eq_ok_iff, he.pieces, walk_eq_ok_iff] at h
  obtain ⟨hcheck, links, hw⟩ := h
  obtain ⟨links, d, hw, hlast⟩ := hw.exists_of_append
  obtain ⟨hdir, hname⟩ : t.isDirectory d = true ∧ IsName name := by
    cases hlast with
    | stay _ hsilent => exact absurd hsilent (by simp [he.loud])
    | ascend => exact absurd rfl he.ne_up
    | follow hdir hname | enter hdir hname => exact ⟨hdir, hname⟩
  exact ⟨_, (named?_eq_some_iff he).mpr ⟨hcheck, hname, d, links, rfl, hdir, hw⟩⟩

end Safelist.Files.Tree
