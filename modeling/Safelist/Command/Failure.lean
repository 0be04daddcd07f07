import Safelist.Client.ProjectError
import Safelist.Command.Configuration
import Safelist.Manifest.Failure

/-!
# Failures of a run

Whatever makes a run fail has a code, a message, and the wordings of what it was
caused by, from the outermost inwards.
-/

namespace Safelist.Command

/-- Why a run failed. -/
inductive Failure where
  /-- There is no usable configuration. -/
  | configuration (cause : ConfigurationError)
  /-- The operations of the client could not be collected. -/
  | project (cause : Client.ProjectError)
  /-- The manifest could not be made or written. -/
  | extraction (cause : Manifest.Failure)
deriving DecidableEq

namespace Failure

/-- The code of a failure. -/
def code : Failure → String
  | .configuration _ => "OPM_CLI_CONFIG_ERROR"
  | .project _ => "OPM_CLI_PROJECT_ERROR"
  | .extraction cause => cause.code

/-- What went wrong. -/
def message : Failure → String
  | .configuration cause => cause.message
  | .project cause => cause.message
  | .extraction cause => cause.details

/-- The wording of a failure with its code. -/
def display (f : Failure) : String := f.code ++ ": " ++ f.message

/-- The wordings of the causes of a failure. -/
def causes : Failure → List String
  | .configuration _ => []
  | .project cause => cause.message :: cause.causes
  | .extraction cause => cause.display :: cause.causes

end Failure

end Safelist.Command
