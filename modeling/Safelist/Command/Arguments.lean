/-!
# Command line arguments

A command line names commands inside commands, and then options and one path for
the innermost. A value that has been read is settled only when something else
begins: what is wrong with it is then reported, unless what begins is wrong by
itself. After a lone double dash everything is a path.
-/

namespace Safelist.Command

/-- What an extraction is asked to do. -/
structure Arguments where
  /-- The path of the manifest. -/
  output : String := "manifest.json"
  /-- The path of the configuration, if one is given. -/
  config : Option String := none
  /-- The name of the client, if one is given. -/
  clientName : Option String := none
  /-- The paths to search, instead of the configured ones if there are any. -/
  includes : List String := []
  /-- The paths to leave out, instead of the configured ones if there are any. -/
  excludes : List String := []
  /-- Whether types of objects are not to be asked for. -/
  noAddTypename : Bool := false
  /-- Whether timings and signatures are logged. -/
  timings : Bool := false
deriving DecidableEq

/-- Why a command line does not lead to an extraction. -/
inductive Stop where
  /-- An option, or one more path, that is not known. -/
  | unknownArgument
  /-- A word in place of a command. -/
  | unknownCommand
  /-- An option without its value, or an empty path. -/
  | badValue
  /-- An option that may be given once only, given again. -/
  | repeatedOption
  /-- A value for an option that takes none. -/
  | unneededValue
  /-- A command that needs another command after it. -/
  | missingCommand
  /-- The help was asked for. -/
  | help
  /-- The version was asked for. -/
  | version
deriving DecidableEq

/-- Whether something was asked for that is not an extraction, rather than mistaken. -/
def Stop.isAnswer : Stop → Bool
  | .help => true
  | .version => true
  | _ => false

/-- The form of an argument. -/
inductive Form where
  /-- A lone double dash. -/
  | escape
  /-- A name after two dashes, and a value after an equals sign. -/
  | long (name : String) (value : Option String)
  /-- A letter after a dash; further letters are of no account. -/
  | short (letter : Char)
  /-- A word; a lone dash is one. -/
  | word

/-- The name and the value of a long option. -/
def splitValue (option : List Char) : String × Option String :=
  match option.dropWhile (· ≠ '=') with
  | [] => (String.ofList option, none)
  | _ :: value => (String.ofList (option.takeWhile (· ≠ '=')), some (String.ofList value))

/-- The form of an argument. -/
def Form.of (argument : String) : Form :=
  match argument.toList with
  | ['-', '-'] => .escape
  | '-' :: '-' :: option =>
    let (name, value) := splitValue option
    .long name value
  | '-' :: letter :: _ => .short letter
  | _ => .word

/-- The options that take a value. -/
inductive ValueOption where
  /-- The path of the configuration. -/
  | config
  /-- The name of the client. -/
  | clientName
  /-- A path to search. -/
  | includes
  /-- A path to leave out. -/
  | excludes
deriving DecidableEq

/-- The options of an extraction. -/
inductive Switch where
  /-- An option that takes a value. -/
  | value (option : ValueOption)
  /-- No types of objects. -/
  | noAddTypename
  /-- Timings and signatures. -/
  | timings
  /-- The help. -/
  | help
deriving DecidableEq

/-- The option of a long name. -/
def Switch.ofName? (name : String) : Option Switch :=
  match name with
  | "config" => some (.value .config)
  | "client-name" => some (.value .clientName)
  | "includes" => some (.value .includes)
  | "excludes" => some (.value .excludes)
  | "no-add-typename" => some .noAddTypename
  | "timings" => some .timings
  | "help" => some .help
  | _ => none

/-- What has been read but not settled. -/
inductive Pending where
  /-- Nothing. -/
  | nothing
  /-- An option that waits for its value, or has it. -/
  | option (option : ValueOption) (value : Option String)
  /-- The path of the manifest. -/
  | output (path : String)

/-- The arguments of an extraction, read in part. -/
structure Progress where
  /-- What is settled. -/
  settled : Arguments := {}
  /-- What is not. -/
  pending : Pending := .nothing
  /-- Whether the path of the manifest has been read. -/
  hasOutput : Bool := false
  /-- Whether a lone double dash has been read. -/
  isEscaped : Bool := false

namespace Progress

/-- A path must not be empty. -/
def path (text : String) : Except Stop String := if text = "" then .error .badValue else .ok text

/-- Give an option its value. That an option is repeated is noticed before its value. -/
def assign (a : Arguments) (option : ValueOption) (value : String) : Except Stop Arguments :=
  match option with
  | .config =>
    if a.config.isSome then .error .repeatedOption
    else (path value).map fun p => { a with config := some p }
  | .clientName =>
    if a.clientName.isSome then .error .repeatedOption
    else .ok { a with clientName := some value }
  | .includes => (path value).map fun p => { a with includes := a.includes ++ [p] }
  | .excludes => (path value).map fun p => { a with excludes := a.excludes ++ [p] }

/-- Settle what has been read. -/
def settle (p : Progress) : Except Stop Progress :=
  match p.pending with
  | .nothing => .ok p
  | .option _ none => .error .badValue
  | .option option (some value) =>
    (assign p.settled option value).map fun a => { p with settled := a, pending := .nothing }
  | .output text =>
    (path text).map fun output =>
      { p with settled := { p.settled with output }, pending := .nothing }

/-- Read a word that is no option and no value of one. -/
def word (p : Progress) (text : String) : Except Stop Progress :=
  if p.hasOutput then .error .unknownArgument
  else do
    let p ← p.settle
    pure { p with pending := .output text, hasOutput := true }

/-- Read an option that takes no value. -/
def flag (p : Progress) (value : Option String) (isSet : Arguments → Bool)
    (set : Arguments → Arguments) : Except Stop Progress :=
  if value.isSome then .error .unneededValue
  else do
    let p ← p.settle
    if isSet p.settled then throw .repeatedOption
    pure { p with settled := set p.settled }

/-- Read an option by its long name. -/
def long (p : Progress) (name : String) (value : Option String) : Except Stop Progress :=
  match Switch.ofName? name, value with
  | none, _ => .error .unknownArgument
  | some (.value option), none => do
    let p ← p.settle
    pure { p with pending := .option option none }
  | some (.value option), some text => do
    let p ← p.settle
    let a ← assign p.settled option text
    pure { p with settled := a }
  | some .noAddTypename, value =>
    p.flag value Arguments.noAddTypename fun a => { a with noAddTypename := true }
  | some .timings, value => p.flag value Arguments.timings fun a => { a with timings := true }
  | some .help, some _ => .error .unneededValue
  | some .help, none => do
    let _ ← p.settle
    throw .help

/-- Read one argument. -/
def next (p : Progress) (argument : String) : Except Stop Progress :=
  if p.isEscaped then p.word argument
  else
    match Form.of argument with
    | .escape => .ok { p with isEscaped := true }
    | .long name value => p.long name value
    | .short letter =>
      if letter = 'h' then do
        let _ ← p.settle
        throw .help
      else .error .unknownArgument
    | .word =>
      match p.pending with
      | .option option none => .ok { p with pending := .option option (some argument) }
      | _ => p.word argument

/-- Read all arguments. -/
def run (p : Progress) : List String → Except Stop Arguments
  | [] => (p.settle).map settled
  | argument :: rest => do run (← p.next argument) rest

end Progress

/-- The commands. -/
inductive Topic where
  /-- The program itself. -/
  | program
  /-- What concerns a client. -/
  | client
  /-- The extraction. -/
  | extract
  /-- The help on commands. -/
  | help
deriving DecidableEq

/-- The command of a name inside a command. -/
def Topic.sub? : Topic → String → Option Topic
  | .program, "client" => some .client
  | .program, "help" => some .help
  | .client, "extract" => some .extract
  | .client, "help" => some .help
  | _, _ => none

/-- Ask for help on a command by the names that lead to it. -/
def helpOn (topic : Topic) : List String → Stop
  | [] => .help
  | name :: rest =>
    match topic.sub? name with
    | some topic => helpOn topic rest
    | none => .unknownCommand

/-- What comes of an argument where a command is needed and none is named. -/
def strayArgument (topic : Topic) (argument : String) (rest : List String) : Stop :=
  let answer (reply : Stop) (value : Option String) : Stop :=
    if value.isSome then .unneededValue else reply
  match Form.of argument with
  | .escape =>
    match rest with
    | [] => .missingCommand
    | name :: _ => if (topic.sub? name).isSome then .unknownArgument else .unknownCommand
  | .long "help" value => answer .help value
  | .long "version" value =>
    if topic = .program then answer .version value else .unknownArgument
  | .long _ _ => .unknownArgument
  | .short 'h' => .help
  | .short 'V' => if topic = .program then .version else .unknownArgument
  | .short _ => .unknownArgument
  | .word => .unknownCommand

/-- Read the arguments that follow the name of a command. -/
def readCommand (topic : Topic) : List String → Except Stop Arguments
  | [] => if topic = .extract then .ok {} else .error .missingCommand
  | argument :: rest =>
    match topic with
    | .extract => Progress.run {} (argument :: rest)
    | topic =>
      match topic.sub? argument with
      | some .help => .error (helpOn topic rest)
      | some inner => readCommand inner rest
      | none => .error (strayArgument topic argument rest)

/-- What a command line asks for. -/
def Arguments.read (commandLine : List String) : Except Stop Arguments :=
  readCommand .program commandLine

end Safelist.Command
