import Safelist.Command.Run

/-!
# The program

The program reads its command line and does what it asks for. Its status is zero
when that was done, one when the run failed, and two when the command line asks
for nothing that can be done.
-/

namespace Safelist.Command

/-- What is told about the version. -/
def versionText : String := "opmanifest 0.1.0\n"

/-- What is told about the use of the program. -/
def helpText : String :=
  "Usage: opmanifest client extract [OPTIONS] [OUTPUT]\n\n" ++
  "Writes the manifest of a client's operations to OUTPUT (manifest.json).\n\n" ++
  "Options:\n" ++
  "  --config <PATH>       Configuration file (opmanifest.json if it is there)\n" ++
  "  --client-name <NAME>  Name of the client\n" ++
  "  --includes <PATH>     File or directory to search; may be repeated\n" ++
  "  --excludes <PATH>     Path to leave out; may be repeated\n" ++
  "  --no-add-typename     Do not ask for the types of objects\n" ++
  "  --timings             Log timings and signatures\n" ++
  "  -h, --help            Print this help\n"

/-- What is told about a command line that can not be followed. -/
def Stop.complaint : Stop → String
  | .unknownArgument => "error: unknown argument\n"
  | .unknownCommand => "error: unknown command\n"
  | .badValue => "error: a value is missing or empty\n"
  | .repeatedOption => "error: an option can not be repeated\n"
  | .unneededValue => "error: an option takes no value\n"
  | .missingCommand => helpText
  | .help => ""
  | .version => ""

variable {m : Type → Type} [Monad m] [Machine m]

/-- Run the program. The result is its status. -/
def program (commandLine : List String) : m UInt32 :=
  match Arguments.read commandLine with
  | .error .help => do
    Machine.print helpText
    pure 0
  | .error .version => do
    Machine.print versionText
    pure 0
  | .error stop => do
    Machine.complain stop.complaint
    pure 2
  | .ok a => do
    match ← (run a).run with
    | .ok () => pure 0
    | .error failure =>
      Machine.complain (failure.display ++ "\n")
      pure 1

end Safelist.Command
