import Safelist.Files.Tree
import Safelist.Log.Event
import Safelist.Log.Scope
import Safelist.Log.Account

/-!
# Machines

A machine is what a run asks of its surroundings: files by their paths, a clock,
the log with the least severity that is written to it, and two streams for text.
Everything a run does goes through these operations.
-/

namespace Safelist

/-- What a path leads to when it leads to one of these. -/
inductive FileKind where
  /-- A file. -/
  | file
  /-- A directory. -/
  | directory
deriving DecidableEq

/-- The steps of writing a file. -/
inductive WriteStep where
  /-- Making the file, or emptying the one that is there. -/
  | create
  /-- Writing its content. -/
  | write
  /-- Making sure that the content stays. -/
  | sync
deriving DecidableEq

/-- The operations of a machine. -/
class Machine (m : Type → Type) where
  /-- The text of a file. -/
  readText (path : String) : m (Except Files.Fault String)
  /-- What a path leads to, all links followed; nothing when it leads to neither. -/
  kindOf (path : String) : m (Option FileKind)
  /-- What is in a directory, in any order. -/
  list (directory : String) : m (Except Files.Fault (List (Files.Listed directory)))
  /-- Make a file with a text, or give the text to the file that is there. -/
  writeText (path text : String) : m (Except (WriteStep × Files.Fault) Unit)
  /-- Move a file over whatever is at the target. -/
  move (source target : String) : m (Except Files.Fault Unit)
  /-- Remove a file if that is possible. -/
  remove (path : String) : m Unit
  /-- The reading of a clock that never goes back, in milliseconds. -/
  clock : m Nat
  /-- The least severity that is written to the log. -/
  threshold : m Log.Severity
  /-- Change the least severity that is written to the log. -/
  setThreshold (severity : Log.Severity) : m Unit
  /-- Write an entry to the log. -/
  record (entry : Log.Entry) : m Unit
  /-- Write a text to the stream for results. -/
  print (text : String) : m Unit
  /-- Write a text to the stream for complaints. -/
  complain (text : String) : m Unit

namespace Machine

variable {m : Type → Type} [Monad m] [Machine m]

/-- Whether an entry of a severity is written to the log. -/
def enabled (severity : Log.Severity) : m Bool := do
  pure ((← threshold).admits severity)

/-- Write an entry to the log, unless its severity is too low. -/
def log (entry : Log.Entry) : m Unit := do
  if ← enabled entry.severity then record entry

/-- Report an event. -/
def report (event : Log.Event) (fields : List (String × String)) : m Unit :=
  log (event.entry fields)

/-- Write the entries of an account to the log and go on with its outcome. -/
def tell {ε α : Type} (account : Log.Account ε α) : ExceptT ε m α := do
  account.entries.forM fun entry => (log entry : m Unit)
  ExceptT.mk (pure account.outcome)

/-- Begin a scope. -/
def openScope (name : String) (fields : List (String × String)) : m Log.Scope := do
  let scope : Log.Scope := ⟨name, fields, 0⟩
  log scope.opening
  pure { scope with begun := ← clock }

/-- End a scope. -/
def closeScope (scope : Log.Scope) (ending : Log.Ending) : m Unit := do
  log (scope.closing (← clock) ending)

end Machine

end Safelist
