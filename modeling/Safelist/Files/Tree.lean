import Safelist.Files.Fault
import Safelist.Files.Path

/-!
# File trees

A tree holds files, directories and symbolic links at places, a place being the
names that lead to it from the root. Paths are walked from a directory; a link
on the way is followed by walking its target, at most forty times. Permissions,
full disks and other users of the tree are not modelled.
-/

namespace Safelist.Files

/-- What is at a place. -/
inductive Node where
  /-- A file with its content. -/
  | file (bytes : ByteArray)
  /-- A directory. -/
  | directory
  /-- A symbolic link to a path. -/
  | link (target : String)

/-- Whether a directory is there. -/
def Node.isDirectory : Node → Bool
  | .directory => true
  | _ => false

/-- The names that lead to a place from the root. -/
abbrev Place := List String

/-- What is at the places of a tree; the root is always a directory. -/
structure Tree where
  /-- The places below the root with what is there, the first entry of a place counting. -/
  entries : List (Place × Node)

/-- How many links may be followed on the way of one path. -/
def maxLinks : Nat := 40

/-- How many bytes a name may have. -/
def maxNameBytes : Nat := 255

/-- How many bytes a path may have. -/
def maxPathBytes : Nat := 4095

/-- Whether a text can be the name of an entry of a directory. -/
def isEntryName (name : String) : Bool :=
  !Path.isSilent name && name ≠ Path.up && name.utf8ByteSize ≤ maxNameBytes &&
    !name.toList.contains '/' && !name.toList.contains '\x00'

/-- The path of an entry is longer than that of its directory. -/
theorem size_lt_join {name : String} (h : isEntryName name = true) (directory : String) :
    directory.utf8ByteSize < (Path.join directory name).utf8ByteSize := by
  simp only [isEntryName, Path.isSilent, Bool.and_eq_true, Bool.not_eq_true',
    Bool.or_eq_false_iff, decide_eq_false_iff_not] at h
  have hne : name.utf8ByteSize ≠ 0 := fun hz => h.1.1.1.1.1 (String.utf8ByteSize_eq_zero_iff.mp hz)
  have hslash : '/' ∉ name.toList := by simpa using h.1.2
  have hrelative : Path.isAbsolute name = false :=
    decide_eq_false fun hc => hslash (List.mem_of_head? hc)
  unfold Path.join
  rw [hrelative, Bool.false_or]
  split
  · rename_i hbase
    rw [of_decide_eq_true hbase, String.utf8ByteSize_empty]
    exact Nat.pos_of_ne_zero hne
  · split <;> simp only [String.utf8ByteSize_append] <;> omega

/-- An entry of the directory that a path leads to, as it is listed there. A link is not
followed. -/
structure Listed (directory : String) where
  /-- The name of the entry. -/
  name : String
  /-- Whether it is a directory. -/
  isDirectory : Bool
  /-- The name is one. -/
  legal : isEntryName name = true
  /-- A directory can be listed only by a path that is not too long. -/
  fits : directory.utf8ByteSize ≤ maxPathBytes

namespace Tree

/-- What is at a place. -/
def node? (t : Tree) (place : Place) : Option Node :=
  if place = [] then some .directory else (t.entries.find? (·.1 = place)).map (·.2)

/-- A tree in which nothing is at a place. -/
def erase (t : Tree) (place : Place) : Tree := ⟨t.entries.filter (·.1 ≠ place)⟩

/-- A tree in which something new is at a place. -/
def set (t : Tree) (place : Place) (node : Node) : Tree :=
  ⟨(t.erase place).entries ++ [(place, node)]⟩

/-- Whether a directory is at a place. -/
def isDirectory (t : Tree) (place : Place) : Bool := (t.node? place).any Node.isDirectory

/-- The directory in which the walk of a path begins. -/
def origin (here : Place) (path : String) : Place := if Path.isAbsolute path then [] else here

/-- Walk pieces of a path from a place, following every link. The result is the place
reached, where something is. -/
def walk (t : Tree) (links : Nat) (here : Place) : List String → Except Fault Place
  | [] => .ok here
  | piece :: rest =>
    if !t.isDirectory here then .error .notADirectory
    else if Path.isSilent piece then walk t links here rest
    else if piece = Path.up then walk t links here.dropLast rest
    else if maxNameBytes < piece.utf8ByteSize then .error .nameTooLong
    else
      match t.node? (here ++ [piece]) with
      | none => .error .notFound
      | some (.link target) =>
        match links with
        | 0 => .error .tooManyLinks
        | links + 1 => walk t links (origin here target) (Path.pieces target ++ rest)
      | some _ => walk t links (here ++ [piece]) rest
termination_by pieces => (links, pieces.length)

/-- Walk pieces of a path from a place to where a file would be made. Something that is
there already must be a file; a link is followed, also when nothing is at its target. -/
def land (t : Tree) (links : Nat) (here : Place) : List String → Except Fault Place
  | [] => .error .isADirectory
  | piece :: rest =>
    if !t.isDirectory here then .error .notADirectory
    else if Path.isSilent piece then land t links here rest
    else if piece = Path.up then land t links here.dropLast rest
    else if !rest.isEmpty && rest.all (· = "") then .error .isADirectory
    else if maxNameBytes < piece.utf8ByteSize then .error .nameTooLong
    else
      match t.node? (here ++ [piece]) with
      | none => if rest.isEmpty then .ok (here ++ [piece]) else .error .notFound
      | some (.link target) =>
        match links with
        | 0 => .error .tooManyLinks
        | links + 1 => land t links (origin here target) (Path.pieces target ++ rest)
      | some (.file _) => if rest.isEmpty then .ok (here ++ [piece]) else .error .notADirectory
      | some .directory => land t links (here ++ [piece]) rest
termination_by pieces => (links, pieces.length)

/-- A path must have characters, not too many, and no zero character among them. -/
def checkPath (path : String) : Except Fault Unit :=
  if path.toList.contains '\x00' then .error .zeroInPath
  else if path = "" then .error .notFound
  else if maxPathBytes < path.utf8ByteSize then .error .nameTooLong
  else .ok ()

/-- The place that a path leads to from a directory, all links followed. -/
def locate (t : Tree) (here : Place) (path : String) : Except Fault Place := do
  checkPath path
  t.walk maxLinks (origin here path) (Path.pieces path)

/-- A path that leads somewhere is not too long. -/
theorem fits_of_locate {t : Tree} {here place : Place} {path : String}
    (h : t.locate here path = .ok place) : path.utf8ByteSize ≤ maxPathBytes := by
  refine Nat.not_lt.mp fun hlong => ?_
  have hcheck : ∃ fault, checkPath path = .error fault := by
    unfold checkPath
    split
    · exact ⟨_, rfl⟩
    · split
      · exact ⟨_, rfl⟩
      · exact ⟨_, rfl⟩
  obtain ⟨fault, hfault⟩ := hcheck
  rw [locate, hfault] at h
  cases h

/-- The names of the entries of the directory at a place. -/
def namesAt (t : Tree) (place : Place) : List String :=
  (t.entries.filterMap fun e => if e.1.dropLast = place then e.1.getLast? else none).eraseDups

/-- What is in the directory that a path leads to. -/
def list (t : Tree) (here : Place) (directory : String) :
    Except Fault (List (Listed directory)) :=
  match located : t.locate here directory with
  | .error fault => .error fault
  | .ok place =>
    if t.isDirectory place then
      .ok ((t.namesAt place).filterMap fun name =>
        if legal : isEntryName name then
          some ⟨name, t.isDirectory (place ++ [name]), legal, fits_of_locate located⟩
        else none)
    else .error .notADirectory

/-- The text of the file that a path leads to. -/
def readText (t : Tree) (here : Place) (path : String) : Except Fault String := do
  match t.node? (← t.locate here path) with
  | some (.file bytes) =>
    match String.fromUTF8? bytes with
    | some text => pure text
    | none => throw .notText
  | some .directory => throw .isADirectory
  | _ => throw .notFound

/-- The tree after a file has been made, or the file that is there emptied, and bytes have
been written to it. -/
def create (t : Tree) (here : Place) (path : String) (bytes : ByteArray) :
    Except Fault Tree := do
  checkPath path
  let place ← t.land maxLinks (origin here path) (Path.pieces path)
  pure (t.set place (.file bytes))

/-- The last piece of a path, as an entry of the directory that the rest leads to. -/
inductive Final where
  /-- An entry of a directory; the path may have slashes at its end. -/
  | entry (directory : Place) (name : String) (slashed : Bool)
  /-- A directory by itself, not as an entry: the path ends in dots or is the root. -/
  | itself

/-- The last piece of a path. A link there is not followed. -/
def final (t : Tree) (here : Place) (path : String) : Except Fault Final := do
  checkPath path
  let all := Path.pieces path
  let kept := (all.reverse.dropWhile (· = "")).reverse
  match kept.getLast? with
  | none => pure .itself
  | some name =>
    let directory ← t.walk maxLinks (origin here path) kept.dropLast
    if !t.isDirectory directory then throw .notADirectory
    if name = "." || name = Path.up then pure .itself
    else if maxNameBytes < name.utf8ByteSize then throw .nameTooLong
    else pure (.entry directory name (kept.length < all.length))

/-- The tree after a file or a link has been moved over whatever is at a path, unless a
directory is there. -/
def move (t : Tree) (here : Place) (source target : String) : Except Fault Tree := do
  let start ← t.final here source
  let goal ← t.final here target
  match start, goal with
  | .entry outOf oldName oldSlashed, .entry into newName newSlashed =>
    match t.node? (outOf ++ [oldName]) with
    | none => throw .notFound
    | some .directory => throw .isADirectory
    | some node =>
      if oldSlashed || newSlashed then throw .notADirectory
      if t.isDirectory (into ++ [newName]) then throw .isADirectory
      pure ((t.erase (outOf ++ [oldName])).set (into ++ [newName]) node)
  | _, _ => throw .busy

/-- The tree after a file or a link has been removed. -/
def remove (t : Tree) (here : Place) (path : String) : Except Fault Tree := do
  match ← t.final here path with
  | .entry directory name slashed =>
    match t.node? (directory ++ [name]) with
    | none => throw .notFound
    | some .directory => throw .isADirectory
    | some _ => if slashed then throw .notADirectory else pure (t.erase (directory ++ [name]))
  | .itself => throw .isADirectory

/-- What is below a place: the names that lead from there, and what is there. -/
def below (t : Tree) (place : Place) : List (Place × Node) :=
  t.entries.filterMap fun e =>
    if place.isPrefixOf e.1 && place.length < e.1.length then
      some (e.1.drop place.length, e.2)
    else none

/-- A tree with directories on the way of some pieces, and where the way leads. -/
def makeDirectories (t : Tree) (here : Place) : List String → Tree × Place
  | [] => (t, here)
  | piece :: rest =>
    match t.walk maxLinks here [piece] with
    | .ok place => makeDirectories t place rest
    | .error _ => makeDirectories (t.set (here ++ [piece]) .directory) (here ++ [piece]) rest

/-- A tree in which something is at a path, with the directories that lead there. -/
def plant (t : Tree) (here : Place) (path : String) (node : Node) : Tree :=
  let names := Path.names path
  match node with
  | .directory => (t.makeDirectories (origin here path) names).1
  | .file bytes =>
    let (t, _) := t.makeDirectories (origin here path) names.dropLast
    (t.create here path bytes).toOption.getD t
  | .link _ =>
    let (t, directory) := t.makeDirectories (origin here path) names.dropLast
    t.set (directory ++ names.getLast?.toList) node

end Tree

end Safelist.Files
