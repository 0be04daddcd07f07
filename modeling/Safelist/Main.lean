import Safelist.Command.Program
import Safelist.Log.Timestamp
import Std.Time.DateTime.Timestamp

/-!
# The machine that runs the program

Here the operations of a machine are those of the computer itself: its files,
clocks and streams. The least severity is carried along. Entries are written to
the stream for complaints, one line each, and a line that can not be written
does not stop the run.
-/

namespace Safelist

/-- Work on the computer itself. -/
abbrev Live := StateT Log.Severity IO

namespace Live

/-- The number of an error, and its wording. -/
def numbered : IO.Error → Option (UInt32 × String)
  | .alreadyExists _ n text => some (n, text)
  | .otherError n text => some (n, text)
  | .resourceBusy n text => some (n, text)
  | .resourceVanished n text => some (n, text)
  | .unsupportedOperation n text => some (n, text)
  | .hardwareFault n text => some (n, text)
  | .unsatisfiedConstraints n text => some (n, text)
  | .illegalOperation n text => some (n, text)
  | .protocolError n text => some (n, text)
  | .timeExpired n text => some (n, text)
  | .interrupted _ n text => some (n, text)
  | .noFileOrDirectory _ n text => some (n, text)
  | .invalidArgument _ n text => some (n, text)
  | .permissionDenied _ n text => some (n, text)
  | .resourceExhausted _ n text => some (n, text)
  | .inappropriateType _ n text => some (n, text)
  | .noSuchThing _ n text => some (n, text)
  | .unexpectedEof => none
  | .userError _ => none

/-- The fault that an error stands for. Some operations report its number negated. -/
def faultOf (e : IO.Error) : Files.Fault :=
  match numbered e with
  | none => .other (toString e)
  | some (n, text) =>
    let number := n.toInt32.toInt.natAbs
    (Files.Fault.ofNumber? number).getD (.other s!"{text} (os error {number})")

/-- An action with its error as a fault. -/
def attempt {α : Type} (action : IO α) : IO (Except Files.Fault α) := do
  match ← action.toBaseIO with
  | .ok a => pure (.ok a)
  | .error e => pure (.error (faultOf e))

/-- An action on a path, which must not hold the zero character. -/
def onPath {α : Type} (path : String) (action : IO α) : IO (Except Files.Fault α) :=
  if path.toList.contains '\x00' then pure (.error .zeroInPath) else attempt action

/-- The text of a file. -/
def readText (path : String) : IO (Except Files.Fault String) := do
  match ← onPath path (IO.FS.readBinFile path) with
  | .error fault => pure (.error fault)
  | .ok bytes =>
    match String.fromUTF8? bytes with
    | some text => pure (.ok text)
    | none => pure (.error .notText)

/-- A path as the place where entries are. -/
def entryAt (path : String) : IO.FS.DirEntry := ⟨path, ""⟩

/-- What a path leads to. -/
def kindOf (path : String) : IO (Option FileKind) := do
  match ← onPath path (entryAt path).root.metadata with
  | .error _ => pure none
  | .ok data =>
    match data.type with
    | .file => pure (some .file)
    | .dir => pure (some .directory)
    | _ => pure none

/-- What is in a directory. -/
def list (directory : String) : IO (Except Files.Fault (List (Files.Listed directory))) := do
  if fits : directory.utf8ByteSize ≤ Files.maxPathBytes then
    match ← onPath directory (entryAt directory).root.readDir with
    | .error fault => pure (.error fault)
    | .ok found =>
      let mut entries : List (Files.Listed directory) := []
      for entry in found do
        match ← attempt entry.path.symlinkMetadata with
        | .error fault => return .error fault
        | .ok data =>
          if legal : Files.isEntryName entry.fileName then
            entries := ⟨entry.fileName, data.type == .dir, legal, fits⟩ :: entries
      pure (.ok entries)
  else pure (.error .nameTooLong)

/-- Make a file with a text, or give the text to the file that is there. -/
def writeText (path text : String) : IO (Except (WriteStep × Files.Fault) Unit) := do
  match ← onPath path (IO.FS.Handle.mk path .write) with
  | .error fault => pure (.error (.create, fault))
  | .ok handle =>
    match ← attempt (handle.write text.toUTF8) with
    | .error fault => pure (.error (.write, fault))
    | .ok () => return (← attempt handle.flush).mapError (WriteStep.sync, ·)

/-- Do something whose failure does not matter. -/
def quietly (action : IO Unit) : IO Unit := do
  let _ ← attempt action

/-- Write a text to the stream for complaints. -/
def complain (text : String) : IO Unit := quietly do
  let stream ← IO.getStderr
  stream.putStr text
  stream.flush

/-- Write an entry with the present time. -/
def record (entry : Log.Entry) : IO Unit := do
  let now := (← Std.Time.Timestamp.now).toMillisecondsSinceUnixEpoch.toInt.toNat
  complain (entry.line (Log.Timestamp.text now))

end Live

instance : Machine Live where
  readText path := Live.readText path
  kindOf path := Live.kindOf path
  list directory := Live.list directory
  writeText path text := Live.writeText path text
  move source target := Live.attempt (IO.FS.rename source target)
  remove path := Live.quietly (IO.FS.removeFile path)
  clock := IO.monoMsNow
  threshold := get
  setThreshold severity := set severity
  record entry := Live.record entry
  print text := do (← IO.getStdout).putStr text
  complain text := Live.complain text

end Safelist

/-- Run the program on the computer itself. -/
def main (commandLine : List String) : IO UInt32 := do
  let (status, _) ← (Safelist.Command.program commandLine : Safelist.Live UInt32).run .info
  pure status
