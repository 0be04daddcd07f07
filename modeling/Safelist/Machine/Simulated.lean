import Safelist.Files.Tree
import Safelist.Machine.Basic

/-!
# Simulated machines

A world is a file tree with a working directory, a clock, a log and an output.
Work in a world is a function from worlds to worlds, so what a run does can be
computed and reasoned about.
-/

namespace Safelist

/-- What is written to the stream for complaints. -/
inductive Complaint where
  /-- An entry of the log. -/
  | entry (entry : Log.Entry)
  /-- A text. -/
  | text (text : String)
deriving DecidableEq

/-- Everything a run can see and change. -/
structure World where
  /-- The files. -/
  tree : Files.Tree
  /-- The working directory. -/
  here : Files.Place
  /-- The least severity that is written to the log. -/
  threshold : Log.Severity
  /-- The readings of the clock to come; after the last one it stands at zero. -/
  readings : List Nat
  /-- What has been written to the stream for complaints. -/
  complaints : List Complaint
  /-- What has been written to the stream for results. -/
  output : String

/-- Work in a world. -/
abbrev Simulated := StateM World

namespace World

/-- A change of the file tree, if there is one. -/
def withTree (w : World) {ε : Type} : Except ε Files.Tree → Except ε Unit × World
  | .ok tree => (.ok (), { w with tree })
  | .error fault => (.error fault, w)

/-- What a path leads to. -/
def kindOf (w : World) (path : String) : Option FileKind :=
  match w.tree.locate w.here path with
  | .error _ => none
  | .ok place =>
    match w.tree.node? place with
    | some (.file _) => some .file
    | some .directory => some .directory
    | _ => none

end World

instance : Machine Simulated where
  readText path w := (w.tree.readText w.here path, w)
  kindOf path w := (w.kindOf path, w)
  list directory w := (w.tree.list w.here directory, w)
  writeText path text w :=
    w.withTree ((w.tree.create w.here path text.toUTF8).mapError (WriteStep.create, ·))
  move source target w := w.withTree (w.tree.move w.here source target)
  remove path w := ((), { w with tree := (w.tree.remove w.here path).toOption.getD w.tree })
  clock w := (w.readings.headD 0, { w with readings := w.readings.tail })
  threshold w := (w.threshold, w)
  setThreshold severity w := ((), { w with threshold := severity })
  record entry w := ((), { w with complaints := w.complaints ++ [.entry entry] })
  print text w := ((), { w with output := w.output ++ text })
  complain text w := ((), { w with complaints := w.complaints ++ [.text text] })

end Safelist
