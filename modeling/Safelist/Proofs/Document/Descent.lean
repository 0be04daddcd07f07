import Safelist.Document.Reading

/-!
# Descent with a cursor

The grammar of documents can be read by routines that call one another, one for each kind
of phrase, over the tokens of a text and a cursor into them. Nothing here says that they end:
routines and loops are least fixed points, and a reader that runs forever has no result. A
reader tells what it does as it goes: which routines it enters and leaves, each turn of a
loop, and each advance of the cursor. What it has told is all the state it has.
-/

namespace Safelist

open Lexical

namespace Descent

/-- The routines, one for each kind of phrase. They share smaller readers, which call none of
them back. -/
inductive Routine where
  | document
  | definition
  | operation
  | fragment
  | variableDefinitions
  | selectionSet
  | selection
  | field
  | directives
  | arguments
  | value
  | type
deriving DecidableEq

/-- What a reader tells. -/
inductive Event where
  /-- A routine is entered. -/
  | enter (routine : Routine)
  /-- The routine entered last is left, with a result. -/
  | leave
  /-- The loop of the routine entered last begins another turn. -/
  | turn
  /-- The cursor is moved to the next token. -/
  | advance
deriving DecidableEq

/-- A routine that has been entered and not left. No routine works at more than one loop. -/
structure Call where
  /-- The routine. -/
  routine : Routine
  /-- The cursor when it was entered. -/
  entry : Nat
  /-- The cursors at the turns of its loop, the last one first. -/
  turns : List Nat

/-- A moment of a run. -/
structure Moment where
  /-- The place of the next token to be read. -/
  cursor : Nat
  /-- The routines at work, the innermost first. -/
  calls : List Call

namespace Moment

/-- The moment after an event. -/
def after (m : Moment) : Event → Moment
  | .enter routine => { m with calls := ⟨routine, m.cursor, []⟩ :: m.calls }
  | .leave => { m with calls := m.calls.tail }
  | .turn =>
    { m with calls := m.calls.modifyHead fun c => { c with turns := m.cursor :: c.turns } }
  | .advance => { m with cursor := m.cursor + 1 }

/-- The moment at which a run has told these events. -/
def ofLog (log : List Event) : Moment := log.foldl after ⟨0, []⟩

end Moment

/-- A run over some tokens that neither leaves them nor stands still, told by its log. -/
structure IsPaced (ts : TokenStream) (log : List Event) : Prop where
  /-- The cursor is never moved past the end. -/
  inBounds : ∀ earlier, earlier <+: log → (Moment.ofLog earlier).cursor ≤ ts.tokens.length
  /-- When a routine is entered that is at work already, the cursor has moved since. -/
  reentered : ∀ earlier, earlier <+: log → (Moment.ofLog earlier).calls.Pairwise
    fun inner outer => inner.routine = outer.routine → outer.entry < inner.entry
  /-- Between the turns of a loop the cursor has moved. -/
  turned : ∀ earlier, earlier <+: log → ∀ c ∈ (Moment.ofLog earlier).calls,
    c.turns.Pairwise fun later before => before < later
  /-- The cursor is advanced fewer times than there are tokens, the end among them. -/
  advances : log.count .advance < ts.tokens.length + 1

/-- A reader. Without a result it runs forever. -/
abbrev Reader := ExceptT ReadError (StateT (List Event) Option)

/-- Tell an event. -/
def tell (e : Event) : Reader Unit := modify fun log => log ++ [e]

/-- Where the cursor is. -/
def cursor : Reader Nat := do return (Moment.ofLog (← get)).cursor

/-- Enter a routine, do its work, and leave it. -/
abbrev within {α : Type} (routine : Routine) (work : Reader α) : Reader α := do
  tell (.enter routine)
  let a ← work
  tell .leave
  return a

/-- Whether a name is found. -/
def isName : Option Lexeme → Bool
  | some (.name _) => true
  | _ => false

/-- Whether the name of a fragment is found where it would be used. -/
def isUse : Option Lexeme → Bool
  | some (.name name) => name ≠ "on"
  | _ => false

end Descent

namespace Lexical.TokenStream

open Descent Grammar

/-- The lexeme at a place of the stream. None stands at its end. -/
def lexeme? (ts : TokenStream) (i : Nat) : Option Lexeme := ts.tokens[i]?.map Token.lexeme

/-- The position of a place of the stream. -/
def positionAt (ts : TokenStream) (i : Nat) : Position :=
  (ts.tokens[i]?.map Token.position).getD ts.stop

/-- The lexeme at the cursor. -/
def peek (ts : TokenStream) : Reader (Option Lexeme) := do return ts.lexeme? (← cursor)

/-- The position of the cursor. -/
def position (ts : TokenStream) : Reader Position := do return ts.positionAt (← cursor)

/-- Take the lexeme at the cursor. The end of the text is never left behind. -/
def advance (ts : TokenStream) : Reader (Option Lexeme) := do
  match ← ts |>.peek with
  | some l =>
    tell .advance
    return some l
  | none => return none

/-- End with a problem at the cursor. -/
def fail (ts : TokenStream) {α : Type} (problem : Problem) : Reader α := do
  throw (.malformed (← ts |>.position) problem)

/-- End because of what is at the cursor. -/
def unexpected (ts : TokenStream) {α : Type} : Reader α := do
  ts |>.fail (.unexpected (← ts |>.peek))

/-- Take a mark if it is at the cursor, and tell whether it was. -/
def skip (ts : TokenStream) (m : Mark) : Reader Bool := do
  if (← ts |>.peek) = some (.mark m) then
    let _ ← ts |>.advance
    return true
  else return false

/-- Take a mark that must be at the cursor. -/
def expect (ts : TokenStream) (m : Mark) : Reader Unit := do
  if ← ts |>.skip m then return ()
  else ts |>.fail (.expected (.mark m) (← ts |>.peek))

/-- Take a keyword that must be at the cursor. -/
def expectKeyword (ts : TokenStream) (word : String) : Reader Unit := do
  if (← ts |>.peek) = some (.name word) then
    let _ ← ts |>.advance
  else ts |>.fail (.expected (.keyword word) (← ts |>.peek))

/-- Take the name that must be at the cursor. -/
def expectName (ts : TokenStream) : Reader String := do
  match ← ts |>.peek with
  | some (.name name) =>
    let _ ← ts |>.advance
    return name
  | found => ts |>.fail (.expected .name found)

/-- A type, and an exclamation mark on it if there is one. -/
def marked (ts : TokenStream) (type : TypeRef) : Reader TypeRef := do
  if ← ts |>.skip .bang then return .nonNull type else return type

/-- A type. -/
def typeRef (ts : TokenStream) : Reader TypeRef := within .type do
  if ← ts |>.skip .openBracket then
    let item ← ts |>.typeRef
    ts |>.expect .closeBracket
    ts |>.marked (.list item)
  else
    let name ← ts |>.expectName
    ts |>.marked (.named name)
partial_fixpoint

mutual

/-- A value, which may be or hold a variable unless it is to be constant. -/
def value (ts : TokenStream) (constant : Bool) : Reader Value := within .value do
  let start ← ts |>.position
  match ← ts |>.peek with
  | some (.mark .openBracket) =>
    let _ ← ts |>.advance
    let items ← ts |>.listItems constant []
    return .list items
  | some (.mark .openBrace) =>
    let _ ← ts |>.advance
    let members ← ts |>.objectMembers constant []
    return .object members
  | some (.mark .dollar) =>
    if constant then throw (.malformed start .variableInConstant)
    else
      let _ ← ts |>.advance
      let name ← ts |>.expectName
      return .var name
  | _ =>
    match ← ts |>.advance with
    | some (.int text) => return .int text
    | some (.float text) => return .float text
    | some (.string text) => return .string text false
    | some (.block text) => return .string text true
    | some (.name name) => return valueOfName name
    | found => throw (.malformed start (.unexpected found))
partial_fixpoint

/-- The items of a list, behind those read before, up to the closing bracket. -/
def listItems (ts : TokenStream) (constant : Bool) (items : List Value) :
    Reader (List Value) := do
  tell .turn
  if ← ts |>.skip .closeBracket then return items
  else if (← ts |>.peek) = none then ts |>.unexpected
  else
    let item ← ts |>.value constant
    ts |>.listItems constant (items ++ [item])
partial_fixpoint

/-- The members of an input object, behind those read before, up to the closing brace. -/
def objectMembers (ts : TokenStream) (constant : Bool) (members : List (String × Value)) :
    Reader (List (String × Value)) := do
  tell .turn
  if ← ts |>.skip .closeBrace then return members
  else
    let name ← ts |>.expectName
    ts |>.expect .colon
    let member ← ts |>.value constant
    ts |>.objectMembers constant (members ++ [(name, member)])
partial_fixpoint

end

/-- Arguments, behind those read before, up to the closing parenthesis. -/
def moreArguments (ts : TokenStream) (constant : Bool) (arguments : List Argument) :
    Reader (List Argument) := do
  tell .turn
  let name ← ts |>.expectName
  ts |>.expect .colon
  let given ← ts |>.value constant
  let arguments := arguments ++ [⟨name, given⟩]
  if ← ts |>.skip .closeParen then return arguments
  else ts |>.moreArguments constant arguments
partial_fixpoint

/-- Arguments in parentheses, or none. -/
def arguments (ts : TokenStream) (constant : Bool) : Reader (List Argument) :=
  within .arguments do
    if ← ts |>.skip .openParen then ts |>.moreArguments constant []
    else return []

/-- Directives, behind those read before. -/
def moreDirectives (ts : TokenStream) (constant : Bool) (directives : List Directive) :
    Reader (List Directive) := do
  tell .turn
  if ← ts |>.skip .atSign then
    let name ← ts |>.expectName
    let given ← ts |>.arguments constant
    ts |>.moreDirectives constant (directives ++ [⟨name, given⟩])
  else return directives
partial_fixpoint

/-- Directives, as many as there are. -/
def directives (ts : TokenStream) (constant : Bool) : Reader (List Directive) :=
  within .directives do ts |>.moreDirectives constant []

/-- The default of a variable, if it has one. -/
def defaultValue (ts : TokenStream) : Reader (Option Value) := do
  if ← ts |>.skip .equals then
    let given ← ts |>.value true
    return some given
  else return none

/-- Declarations of variables, behind those read before, up to the closing parenthesis. -/
def moreVariables (ts : TokenStream) (declared : List VariableDefinition) :
    Reader (List VariableDefinition) := do
  tell .turn
  ts |>.expect .dollar
  let name ← ts |>.expectName
  ts |>.expect .colon
  let type ← ts |>.typeRef
  let given ← ts |>.defaultValue
  let attached ← ts |>.directives true
  let declared := declared ++ [⟨name, type, given, attached⟩]
  if ← ts |>.skip .closeParen then return declared
  else ts |>.moreVariables declared
partial_fixpoint

/-- Declarations of variables in parentheses, or none. -/
def variableDefinitions (ts : TokenStream) : Reader (List VariableDefinition) :=
  within .variableDefinitions do
    if ← ts |>.skip .openParen then ts |>.moreVariables []
    else return []

/-- The name of a field, behind its alias if it has one. -/
def fieldName (ts : TokenStream) : Reader Field := do
  let first ← ts |>.expectName
  if ← ts |>.skip .colon then
    let name ← ts |>.expectName
    return ⟨some first, name, [], []⟩
  else return .plain first

/-- The type that an inline fragment applies to, if it names one. -/
def typeCondition (ts : TokenStream) : Reader (Option String) := do
  if (← ts |>.peek) = some (.name "on") then
    let _ ← ts |>.advance
    let type ← ts |>.expectName
    return some type
  else return none

mutual

/-- A selection set. -/
def selectionSet (ts : TokenStream) : Reader (List Selection) := within .selectionSet do
  ts |>.expect .openBrace
  ts |>.moreSelections []
partial_fixpoint

/-- Selections, behind those read before, up to the closing brace. -/
def moreSelections (ts : TokenStream) (selections : List Selection) :
    Reader (List Selection) := do
  tell .turn
  let one ← ts |>.selection
  let selections := selections ++ [one]
  if ← ts |>.skip .closeBrace then return selections
  else ts |>.moreSelections selections
partial_fixpoint

/-- A selection. Behind the dots, a name other than the keyword is that of a fragment. -/
def selection (ts : TokenStream) : Reader Selection := within .selection do
  if ← ts |>.skip .dots then
    if isUse (← ts |>.peek) then
      let name ← ts |>.expectName
      let attached ← ts |>.directives false
      return .spread ⟨name, attached⟩
    else
      let type ← ts |>.typeCondition
      let attached ← ts |>.directives false
      let set ← ts |>.selectionSet
      return .inline ⟨type, attached⟩ set
  else ts |>.field
partial_fixpoint

/-- A field. -/
def field (ts : TokenStream) : Reader Selection := within .field do
  let head ← ts |>.fieldName
  let given ← ts |>.arguments false
  let attached ← ts |>.directives false
  let head := { head with arguments := given, directives := attached }
  if (← ts |>.peek) = some (.mark .openBrace) then
    let set ← ts |>.selectionSet
    return .nested head set
  else return .leaf head
partial_fixpoint

end

/-- The name of an operation, if it has one. -/
def operationName (ts : TokenStream) : Reader (Option String) := do
  if isName (← ts |>.peek) then
    let name ← ts |>.expectName
    return some name
  else return none

/-- An operation. The keyword has been looked at before, so the failure behind it is never
met. -/
def operation (ts : TokenStream) : Reader Operation := within .operation do
  if (← ts |>.peek) = some (.mark .openBrace) then
    let set ← ts |>.selectionSet
    return { bareOperation .query with selections := set }
  else
    let keyword ← ts |>.expectName
    match OperationKind.ofKeyword? keyword with
    | none => ts |>.unexpected
    | some kind =>
      let name ← ts |>.operationName
      let declared ← ts |>.variableDefinitions
      let attached ← ts |>.directives false
      let set ← ts |>.selectionSet
      return ⟨kind, name, declared, attached, set⟩

/-- A fragment. -/
def fragment (ts : TokenStream) : Reader Fragment := within .fragment do
  ts |>.expectKeyword "fragment"
  if (← ts |>.peek) = some (.name "on") then ts |>.unexpected
  else
    let name ← ts |>.expectName
    ts |>.expectKeyword "on"
    let type ← ts |>.expectName
    let attached ← ts |>.directives false
    let set ← ts |>.selectionSet
    return ⟨name, type, attached, set⟩

/-- A definition that begins with a word. -/
def wordDefinition (ts : TokenStream) (start : Position) (word : String) : Reader Definition :=
  if (OperationKind.ofKeyword? word).isSome then do
    let op ← ts |>.operation
    return .operation op
  else if word = "fragment" then do
    let f ← ts |>.fragment
    return .fragment f
  else if word ∈ typeSystemKeywords then throw (.unsupported start word)
  else ts |>.unexpected

/-- A definition. Only one of the type system can begin with a description. -/
def definition (ts : TokenStream) : Reader Definition := within .definition do
  let start ← ts |>.position
  match ← ts |>.peek with
  | some (.mark .openBrace) =>
    let op ← ts |>.operation
    return .operation op
  | some (.name word) => ts |>.wordDefinition start word
  | some (.string _) => throw (.unsupported start "description")
  | some (.block _) => throw (.unsupported start "description")
  | _ => ts |>.unexpected

/-- Definitions, behind those read before, up to the end of the text. -/
def moreDefinitions (ts : TokenStream) (definitions : List Definition) :
    Reader (List Definition) := do
  tell .turn
  let one ← ts |>.definition
  let definitions := definitions ++ [one]
  if (← ts |>.peek) = none then return definitions
  else ts |>.moreDefinitions definitions
partial_fixpoint

/-- A document. -/
def document (ts : TokenStream) : Reader Document := within .document do
  let definitions ← ts |>.moreDefinitions []
  return ⟨definitions⟩

end Lexical.TokenStream

end Safelist
