/-!
# Faults of files

What can go wrong when a file is used. A tree reports the named faults; a real
machine may report others in its own words.
-/

namespace Safelist.Files

/-- Why a file could not be used. -/
inductive Fault where
  /-- Nothing is there. -/
  | notFound
  /-- A directory is needed and something else is there. -/
  | notADirectory
  /-- A directory is there and something else is needed. -/
  | isADirectory
  /-- Links lead on too many times. -/
  | tooManyLinks
  /-- The place can not be replaced because it is in use. -/
  | busy
  /-- A name or a path has too many bytes. -/
  | nameTooLong
  /-- A path holds the zero character. -/
  | zeroInPath
  /-- The content is not text. -/
  | notText
  /-- Something else, in the machine's words. -/
  | other (text : String)
deriving DecidableEq

/-- The wording of a fault. -/
def Fault.message : Fault → String
  | .notFound => "No such file or directory (os error 2)"
  | .notADirectory => "Not a directory (os error 20)"
  | .isADirectory => "Is a directory (os error 21)"
  | .tooManyLinks => "Too many levels of symbolic links (os error 40)"
  | .busy => "Device or resource busy (os error 16)"
  | .nameTooLong => "File name too long (os error 36)"
  | .zeroInPath => "file name contained an unexpected NUL byte"
  | .notText => "stream did not contain valid UTF-8"
  | .other text => text

/-- The fault that a machine reports by its number. -/
def Fault.ofNumber? : Nat → Option Fault
  | 2 => some .notFound
  | 16 => some .busy
  | 20 => some .notADirectory
  | 21 => some .isADirectory
  | 36 => some .nameTooLong
  | 40 => some .tooManyLinks
  | _ => none

end Safelist.Files
