import Mathlib.Data.List.Basic
import Safelist.Manifest.Replacement

/-!
# Names at the end of paths

The pieces of a path joined to a name are those of a way and the name behind it.
So the temporary sibling of a path ends in a name, which is not the name that the
path itself ends in.
-/

namespace Safelist

namespace Files.Path

/-- A path that ends in a name: behind a way stands a piece that neither stays in place nor goes
up. -/
structure EndsIn (path : String) (way : List String) (name : String) : Prop where
  /-- The name is the last piece. -/
  pieces : pieces path = way ++ [name]
  /-- The name leads somewhere. -/
  loud : isSilent name = false
  /-- The name does not go up. -/
  ne_up : name ≠ up

theorem split_append_slash (before behind : List Char) :
    split (before ++ '/' :: behind) = split before ++ split behind := by
  induction before with
  | nil => simp [split]
  | cons c before ih =>
    by_cases hc : c = '/'
    · simp [split, hc, ih]
    · obtain ⟨piece, more, hs⟩ := List.exists_cons_of_ne_nil (split_ne_nil before)
      simp [split, hc, ih, hs]

theorem split_eq_singleton {cs : List Char} (h : '/' ∉ cs) : split cs = [cs] := by
  induction cs with
  | nil => rfl
  | cons c cs ih =>
    have hc : c ≠ '/' := fun hc => h (hc ▸ List.mem_cons_self)
    have hcs : '/' ∉ cs := fun hm => h (List.mem_cons_of_mem _ hm)
    simp [split, hc, ih hcs]

theorem slash_not_mem_of_mem_split {cs piece : List Char} (h : piece ∈ split cs) : '/' ∉ piece := by
  induction cs generalizing piece with
  | nil => simp_all [split]
  | cons c cs ih =>
    unfold split at h
    split at h
    · obtain rfl | h := List.mem_cons.mp h
      · exact List.not_mem_nil
      · exact ih h
    · obtain ⟨first, more, hs⟩ := List.exists_cons_of_ne_nil (split_ne_nil cs)
      rw [hs] at h ih
      obtain rfl | h := List.mem_cons.mp h
      · have hfirst := ih List.mem_cons_self
        simp_all [eq_comm]
      · exact ih (List.mem_cons_of_mem _ h)

/-- No piece of a path has a slash. -/
theorem slash_not_mem_of_mem_pieces {path piece : String} (h : piece ∈ pieces path) :
    '/' ∉ piece.toList := by
  obtain ⟨cs, hcs, rfl⟩ := List.mem_map.mp h
  rw [String.toList_ofList]
  exact slash_not_mem_of_mem_split hcs

theorem pieces_eq_singleton {name : String} (h : '/' ∉ name.toList) : pieces name = [name] := by
  rw [pieces, split_eq_singleton h, List.map_singleton, String.ofList_toList]

theorem isAbsolute_eq_false {name : String} (h : '/' ∉ name.toList) : isAbsolute name = false :=
  decide_eq_false fun hc => h (List.mem_of_head? hc)

/-- A name joined to a path comes behind its pieces, or in place of an empty last one. -/
theorem pieces_join {base name : String} (hbase : base ≠ "") (h : '/' ∉ name.toList) :
    pieces (join base name) = pieces base ++ [name] ∨
      ∃ front, pieces base = front ++ [""] ∧ pieces (join base name) = front ++ [name] := by
  have hrelative := isAbsolute_eq_false h
  have hslash : ∀ (front : List Char) (last : String), pieces last = [last] →
      pieces (String.ofList (front ++ '/' :: last.toList)) =
        (split front).map String.ofList ++ [last] := by
    intro front last hlast
    rw [pieces, String.toList_ofList, split_append_slash, List.map_append, ← pieces, hlast]
  by_cases hlast : base.toList.getLast? = some '/'
  · have hfront := List.dropLast_append_getLast? '/' hlast
    refine .inr ⟨_, ?_, Eq.trans ?_ (hslash base.toList.dropLast name (pieces_eq_singleton h))⟩
    · rw [← hslash base.toList.dropLast "" rfl, String.toList_empty, hfront, String.ofList_toList]
    · rw [← List.singleton_append, ← List.append_assoc, hfront]
      simp [join, hrelative, hbase, hlast]
  · refine .inl (Eq.trans ?_ (hslash base.toList name (pieces_eq_singleton h)))
    simp [join, hrelative, hbase, hlast, String.append_assoc]

/-- A name joined to a path is the last piece. -/
theorem exists_pieces_join (base : String) {name : String} (h : '/' ∉ name.toList) :
    ∃ way, pieces (join base name) = way ++ [name] := by
  by_cases hbase : base = ""
  · exact ⟨[], by simp [join, hbase, pieces_eq_singleton h]⟩
  · obtain hjoin | ⟨front, -, hjoin⟩ := pieces_join hbase h
    · exact ⟨_, hjoin⟩
    · exact ⟨front, hjoin⟩

/-- The name that a path ends in is its file name. -/
theorem EndsIn.fileName? {path name : String} {way : List String} (h : EndsIn path way name) :
    fileName? path = some name := by
  have hnames : (names path).getLast? = some name := by simp [names, h.pieces, h.loud]
  simp [Path.fileName?, hnames, h.ne_up]

end Files.Path

namespace Manifest

open Files.Path

/-- The temporary sibling of a path ends in a name, and the path itself in another one. -/
theorem exists_endsIn_temporary {target temporary : String}
    (h : temporary? target = some temporary) :
    ∃ way name, EndsIn temporary way name ∧ fileName? target ≠ some name := by
  obtain ⟨name, hname, rfl⟩ := Option.map_eq_some_iff.mp h
  have hlast : (names target).getLast? = some name := by
    unfold fileName? at hname
    split at hname
    · split at hname <;> simp_all
    · cases hname
  have hslash : '/' ∉ name.toList :=
    slash_not_mem_of_mem_pieces (List.mem_filter.mp (List.mem_of_getLast? hlast)).1
  have hlong : ("." ++ name ++ ".tmp").length = name.length + 5 := by
    have hends : ".".length = 1 ∧ ".tmp".length = 4 := by decide
    rw [String.length_append, String.length_append, hends.1, hends.2]
    omega
  have hne : ∀ other : String, other.length < 5 → "." ++ name ++ ".tmp" ≠ other := by
    intro other hother heq
    rw [heq] at hlong
    omega
  have hloud : isSilent ("." ++ name ++ ".tmp") = false := by
    simp [isSilent, hne "" (by decide), hne "." (by decide)]
  have htmp : '/' ∉ ("." ++ name ++ ".tmp").toList := by simp [hslash]
  obtain ⟨way, hway⟩ := exists_pieces_join ((parent? target).getD "") htmp
  refine ⟨way, _, ⟨hway, hloud, hne up (by decide)⟩, ?_⟩
  rw [hname]
  intro heq
  have hlength := congrArg String.length (Option.some.inj heq)
  omega

end Manifest

end Safelist
