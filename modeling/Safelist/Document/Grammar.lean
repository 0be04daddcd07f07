import Safelist.Document.Basic
import Safelist.Lexical.Problem

/-!
# The grammar of documents

The grammar is a machine that reads one lexeme at a time. Its states name the
constructs that are open, each with what has been read of it so far; a list that
is still empty tells that it has only just been opened. A state and a lexeme
determine the next state or that the lexeme cannot stand there, so an error is
always at the first lexeme with which no document can go on.
-/

namespace Safelist.Grammar

open Lexical

/-- A selection set that is open, inside the definition or selection it belongs to. -/
inductive Block where
  /-- The root selection set of an operation. -/
  | operation (op : Operation)
  /-- The selection set of a fragment. -/
  | fragment (f : Fragment)
  /-- The selection set of a field. -/
  | nested (outer : Block) (field : Field) (selections : List Selection)
  /-- The selection set of an inline fragment. -/
  | inline (outer : Block) (head : InlineHead) (selections : List Selection)

namespace Block

/-- The selections read so far. -/
def selections : Block → List Selection
  | .operation op => op.selections
  | .fragment f => f.selections
  | .nested _ _ selections => selections
  | .inline _ _ selections => selections

/-- One more selection. -/
def add (s : Selection) : Block → Block
  | .operation op => .operation { op with selections := op.selections ++ [s] }
  | .fragment f => .fragment { f with selections := f.selections ++ [s] }
  | .nested outer field selections => .nested outer field (selections ++ [s])
  | .inline outer head selections => .inline outer head (selections ++ [s])

end Block

/-- What directives are being attached to. -/
inductive Site where
  /-- An operation, before its selection set. -/
  | operation (op : Operation)
  /-- A variable of an operation. -/
  | variableOf (op : Operation) (v : VariableDefinition)
  /-- A fragment, before its selection set. -/
  | fragment (f : Fragment)
  /-- A field, before its selection set. -/
  | field (block : Block) (f : Field)
  /-- The use of a fragment. -/
  | spread (block : Block) (s : Spread)
  /-- An inline fragment, before its selection set. -/
  | inline (block : Block) (head : InlineHead)

namespace Site

/-- One more directive. -/
def attach (d : Directive) : Site → Site
  | .operation op => .operation { op with directives := op.directives ++ [d] }
  | .variableOf op v => .variableOf op { v with directives := v.directives ++ [d] }
  | .fragment f => .fragment { f with directives := f.directives ++ [d] }
  | .field block f => .field block { f with directives := f.directives ++ [d] }
  | .spread block s => .spread block { s with directives := s.directives ++ [d] }
  | .inline block head => .inline block { head with directives := head.directives ++ [d] }

/-- Whether values inside these directives may not hold variables. -/
def isConstant : Site → Bool
  | .variableOf _ _ => true
  | _ => false

end Site

/-- What arguments are being given to. -/
inductive Holder where
  /-- A field. -/
  | field (block : Block) (f : Field)
  /-- A directive. -/
  | directive (site : Site) (d : Directive)

namespace Holder

/-- The arguments read so far. -/
def arguments : Holder → List Argument
  | .field _ f => f.arguments
  | .directive _ d => d.arguments

/-- One more argument. -/
def attach (a : Argument) : Holder → Holder
  | .field block f => .field block { f with arguments := f.arguments ++ [a] }
  | .directive site d => .directive site { d with arguments := d.arguments ++ [a] }

/-- Whether the values given may not hold variables. -/
def isConstant : Holder → Bool
  | .field _ _ => false
  | .directive site _ => site.isConstant

/-- The site of further directives once all arguments are read. -/
def close : Holder → Site
  | .field block f => .field block f
  | .directive site d => site.attach d

end Holder

/-- Where a value belongs that is being read. -/
inductive Slot where
  /-- To an argument of this name. -/
  | argument (holder : Holder) (name : String)
  /-- To a variable, as its default. -/
  | defaultOf (op : Operation) (name : String) (type : TypeRef)
  /-- To a list, after the items read so far. -/
  | item (outer : Slot) (items : List Value)
  /-- To an input object under this name, after the members read so far. -/
  | member (outer : Slot) (members : List (String × Value)) (name : String)

/-- Whether a value may not be or hold a variable. -/
def Slot.isConstant : Slot → Bool
  | .argument holder _ => holder.isConstant
  | .defaultOf _ _ _ => true
  | .item outer _ => outer.isConstant
  | .member outer _ _ => outer.isConstant

/-- Where the machine is: what is open, and what was read last. -/
inductive Focus where
  /-- Between definitions. -/
  | between
  /-- After the keyword of an operation. -/
  | operationKeyword (op : Operation)
  /-- After the name of an operation. -/
  | operationName (op : Operation)
  /-- Inside the parentheses of variables, before or after a whole variable. -/
  | variableDefinitions (op : Operation)
  /-- After the dollar sign of a variable that is declared. -/
  | variableSign (op : Operation)
  /-- After the name of a variable that is declared. -/
  | variableName (op : Operation) (name : String)
  /-- Before a type, inside so many brackets. -/
  | typeStart (op : Operation) (name : String) (depth : Nat)
  /-- After a type, inside so many brackets; the flag tells whether it bears its
  exclamation mark. -/
  | typeEnd (op : Operation) (name : String) (depth : Nat) (type : TypeRef) (marked : Bool)
  /-- After the keyword of a fragment. -/
  | fragmentKeyword
  /-- After the name of a fragment. -/
  | fragmentName (name : String)
  /-- Before the type that a fragment applies to. -/
  | fragmentType (name : String)
  /-- After something that may bear directives, or bear one more. -/
  | site (site : Site)
  /-- After the at sign of a directive. -/
  | directiveSign (site : Site)
  /-- After the name of a directive. -/
  | directiveName (site : Site) (name : String)
  /-- Inside the parentheses of arguments, before or after a whole argument. -/
  | arguments (holder : Holder)
  /-- After the name of an argument. -/
  | argumentName (holder : Holder) (name : String)
  /-- Before a value. -/
  | value (slot : Slot)
  /-- After the dollar sign of a variable that is used. -/
  | variableUse (slot : Slot)
  /-- Inside the brackets of a list, before or after a whole item. -/
  | list (outer : Slot) (items : List Value)
  /-- Inside the braces of an input object, before or after a whole member. -/
  | object (outer : Slot) (members : List (String × Value))
  /-- After the name of a member. -/
  | memberName (outer : Slot) (members : List (String × Value)) (name : String)
  /-- Inside the braces of a selection set, before or after a whole selection. -/
  | block (block : Block)
  /-- After a name that begins a field. -/
  | fieldStart (block : Block) (name : String)
  /-- After the colon of an alias. -/
  | aliasColon (block : Block) (aliasName : String)
  /-- After the name of a field. -/
  | fieldName (block : Block) (f : Field)
  /-- After the dots of a fragment's use or of an inline fragment. -/
  | dots (block : Block)
  /-- Before the type that an inline fragment applies to. -/
  | inlineType (block : Block)

/-- What a lexeme does: it leads to another place, or completes a definition. -/
inductive Move where
  /-- Go on here. -/
  | to (focus : Focus)
  /-- A definition is complete. -/
  | complete (definition : Definition)

/-- A value fills its slot. -/
def Slot.fill (v : Value) : Slot → Focus
  | .argument holder name => .arguments (holder.attach ⟨name, v⟩)
  | .defaultOf op name type => .site (.variableOf op ⟨name, type, some v, []⟩)
  | .item outer items => .list outer (items ++ [v])
  | .member outer members name => .object outer (members ++ [(name, v)])

/-- The value that a name denotes where a value stands. -/
def valueOfName (name : String) : Value :=
  if name = "true" then .boolean true
  else if name = "false" then .boolean false
  else if name = "null" then .null
  else .enum name

/-- The closing brace of a selection set. -/
def Block.close : Block → Move
  | .operation op => .complete (.operation op)
  | .fragment f => .complete (.fragment f)
  | .nested outer field selections => .to (.block (outer.add (.nested field selections)))
  | .inline outer head selections => .to (.block (outer.add (.inline head selections)))

/-- A lexeme inside a selection set: it begins a selection, or closes the set unless
that is still empty. -/
def Block.next (b : Block) : Lexeme → Option Move
  | .name name => some (.to (.fieldStart b name))
  | .mark .dots => some (.to (.dots b))
  | .mark .closeBrace => if b.selections.isEmpty then none else some b.close
  | _ => none

/-- A lexeme between variables: a dollar sign begins one, and a parenthesis closes
the list unless that is still empty. -/
def nextVariable (op : Operation) : Lexeme → Option Move
  | .mark .dollar => some (.to (.variableSign op))
  | .mark .closeParen =>
    if op.variableDefinitions.isEmpty then none else some (.to (.site (.operation op)))
  | _ => none

/-- A lexeme after something that bears directives: an at sign begins one more, and
everything else goes to what follows directives there. -/
def Site.next (site : Site) (lexeme : Lexeme) : Option Move :=
  if lexeme = .mark .atSign then some (.to (.directiveSign site))
  else
    let opens (block : Block) : Option Move :=
      if lexeme = .mark .openBrace then some (.to (.block block)) else none
    match site with
    | .operation op => opens (.operation op)
    | .fragment f => opens (.fragment f)
    | .inline block head => opens (.inline block head [])
    | .variableOf op v => nextVariable (op.declare v) lexeme
    | .field block f =>
      if lexeme = .mark .openBrace then some (.to (.block (.nested block f [])))
      else (block.add (.leaf f)).next lexeme
    | .spread block s => (block.add (.spread s)).next lexeme

/-- A lexeme with which a value begins. -/
def Slot.next (slot : Slot) : Lexeme → Option Move
  | .mark .openBracket => some (.to (.list slot []))
  | .mark .openBrace => some (.to (.object slot []))
  | .mark .dollar => if slot.isConstant then none else some (.to (.variableUse slot))
  | .int text => some (.to (slot.fill (.int text)))
  | .float text => some (.to (slot.fill (.float text)))
  | .string value => some (.to (slot.fill (.string value false)))
  | .block value => some (.to (slot.fill (.string value true)))
  | .name name => some (.to (slot.fill (valueOfName name)))
  | _ => none

/-- An operation of which only the kind is known. -/
def bareOperation (kind : OperationKind) : Operation := ⟨kind, none, [], [], []⟩

/-- A lexeme after the name of an operation or where the name might have been. -/
def afterOperationName (op : Operation) (lexeme : Lexeme) : Option Move :=
  if lexeme = .mark .openParen then some (.to (.variableDefinitions op))
  else (Site.operation op).next lexeme

/-- A lexeme after the name of a field. -/
def afterFieldName (block : Block) (f : Field) (lexeme : Lexeme) : Option Move :=
  if lexeme = .mark .openParen then some (.to (.arguments (.field block f)))
  else (Site.field block f).next lexeme

/-- What a lexeme does at a place, if it can stand there. -/
def Focus.next : Focus → Lexeme → Option Move
  | .between, .mark .openBrace => some (.to (.block (.operation (bareOperation .query))))
  | .between, .name word =>
    match OperationKind.ofKeyword? word with
    | some kind => some (.to (.operationKeyword (bareOperation kind)))
    | none => if word = "fragment" then some (.to .fragmentKeyword) else none
  | .operationKeyword op, .name name => some (.to (.operationName { op with name := some name }))
  | .operationKeyword op, lexeme => afterOperationName op lexeme
  | .operationName op, lexeme => afterOperationName op lexeme
  | .variableDefinitions op, lexeme => nextVariable op lexeme
  | .variableSign op, .name name => some (.to (.variableName op name))
  | .variableName op name, .mark .colon => some (.to (.typeStart op name 0))
  | .typeStart op name depth, .mark .openBracket => some (.to (.typeStart op name (depth + 1)))
  | .typeStart op name depth, .name type =>
    some (.to (.typeEnd op name depth (.named type) false))
  | .typeEnd op name depth type false, .mark .bang =>
    some (.to (.typeEnd op name depth (.nonNull type) true))
  | .typeEnd op name (depth + 1) type _, .mark .closeBracket =>
    some (.to (.typeEnd op name depth (.list type) false))
  | .typeEnd op name 0 type _, .mark .equals => some (.to (.value (.defaultOf op name type)))
  | .typeEnd op name 0 type _, lexeme => (Site.variableOf op ⟨name, type, none, []⟩).next lexeme
  | .fragmentKeyword, .name name =>
    if name = "on" then none else some (.to (.fragmentName name))
  | .fragmentName name, .name word =>
    if word = "on" then some (.to (.fragmentType name)) else none
  | .fragmentType name, .name type => some (.to (.site (.fragment ⟨name, type, [], []⟩)))
  | .site s, lexeme => s.next lexeme
  | .directiveSign s, .name name => some (.to (.directiveName s name))
  | .directiveName s name, .mark .openParen =>
    some (.to (.arguments (.directive s ⟨name, []⟩)))
  | .directiveName s name, lexeme => (s.attach ⟨name, []⟩).next lexeme
  | .arguments holder, .name name => some (.to (.argumentName holder name))
  | .arguments holder, .mark .closeParen =>
    if holder.arguments.isEmpty then none else some (.to (.site holder.close))
  | .argumentName holder name, .mark .colon => some (.to (.value (.argument holder name)))
  | .value slot, lexeme => slot.next lexeme
  | .variableUse slot, .name name => some (.to (slot.fill (.var name)))
  | .list outer items, .mark .closeBracket => some (.to (outer.fill (.list items)))
  | .list outer items, lexeme => (Slot.item outer items).next lexeme
  | .object outer members, .mark .closeBrace => some (.to (outer.fill (.object members)))
  | .object outer members, .name name => some (.to (.memberName outer members name))
  | .memberName outer members name, .mark .colon =>
    some (.to (.value (.member outer members name)))
  | .block b, lexeme => b.next lexeme
  | .fieldStart b name, .mark .colon => some (.to (.aliasColon b name))
  | .fieldStart b name, lexeme => afterFieldName b (.plain name) lexeme
  | .aliasColon b aliasName, .name name =>
    some (.to (.fieldName b ⟨some aliasName, name, [], []⟩))
  | .fieldName b f, lexeme => afterFieldName b f lexeme
  | .dots b, .name name =>
    if name = "on" then some (.to (.inlineType b))
    else some (.to (.site (.spread b ⟨name, []⟩)))
  | .dots b, lexeme => (Site.inline b ⟨none, []⟩).next lexeme
  | .inlineType b, .name type => some (.to (.site (.inline b ⟨some type, []⟩)))
  | _, _ => none

/-- Keywords that begin definitions of the type system. -/
def typeSystemKeywords : List String :=
  ["schema", "scalar", "type", "interface", "union", "enum", "input", "directive", "extend"]

/-- What alone may follow a site when no further directive does, as messages name it. -/
def Site.expected : Site → Expected
  | .operation _ => .mark .openBrace
  | .variableOf _ _ => .mark .dollar
  | .fragment _ => .mark .openBrace
  | .field _ _ => .name
  | .spread _ _ => .name
  | .inline _ _ => .mark .openBrace

/-- What messages name as the thing to stand at a place; some places name nothing. -/
def Focus.expected : Focus → Option Expected
  | .between => none
  | .operationKeyword _ => some (.mark .openBrace)
  | .operationName _ => some (.mark .openBrace)
  | .variableDefinitions _ => some (.mark .dollar)
  | .variableSign _ => some .name
  | .variableName _ _ => some (.mark .colon)
  | .typeStart _ _ _ => some .name
  | .typeEnd _ _ 0 _ _ => some (.mark .dollar)
  | .typeEnd _ _ (_ + 1) _ _ => some (.mark .closeBracket)
  | .fragmentKeyword => some .name
  | .fragmentName _ => some (.keyword "on")
  | .fragmentType _ => some .name
  | .site s => some s.expected
  | .directiveSign _ => some .name
  | .directiveName s _ => some s.expected
  | .arguments _ => some .name
  | .argumentName _ _ => some (.mark .colon)
  | .value _ => none
  | .variableUse _ => some .name
  | .list _ _ => none
  | .object _ _ => some .name
  | .memberName _ _ _ => some (.mark .colon)
  | .block _ => some .name
  | .fieldStart _ _ => some .name
  | .aliasColon _ _ => some .name
  | .fieldName _ _ => some .name
  | .dots _ => some (.mark .openBrace)
  | .inlineType _ => some .name

/-- Whether a value is about to be read that may not be a variable. -/
def Focus.refusesVariable : Focus → Bool
  | .value slot => slot.isConstant
  | .list outer _ => outer.isConstant
  | _ => false

/-- The keyword of an unsupported definition that a lexeme begins between definitions.
Only a definition of the type system can begin with a string. -/
def unsupportedKeyword? : Lexeme → Option String
  | .name word => if word ∈ typeSystemKeywords then some word else none
  | .string _ => some "description"
  | .block _ => some "description"
  | _ => none

/-- The problem with a lexeme, or with the end of the text, that cannot stand at a
place. -/
def Focus.problem (focus : Focus) (found : Option Lexeme) : Problem :=
  if focus.refusesVariable && found = some (.mark .dollar) then .variableInConstant
  else
    match focus, found with
    | .fragmentKeyword, some (.name _) => .unexpected found
    | _, _ =>
      match focus.expected with
      | some what => .expected what found
      | none => .unexpected found

/-- The error of a lexeme, or of the end of the text, that cannot stand at a place. -/
def Focus.error (focus : Focus) (found : Option Lexeme) (position : Position) : ReadError :=
  match focus, found.bind unsupportedKeyword? with
  | .between, some keyword => .unsupported position keyword
  | _, _ => .malformed position (focus.problem found)

end Safelist.Grammar
