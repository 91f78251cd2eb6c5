import SchemaFragments.Document.Parser
import SchemaFragments.Number.Decimal
/-!
# Grammar of schema documents

The readers of values, types and definitions, and `parse`, which reads a whole text. Keywords are
ordinary names wherever the grammar does not ask for them.
-/

namespace SchemaFragments.Document

open SchemaFragments.Document.Parser

/-! ## Strings and numbers -/

/-- The text between the quotes of a literal. -/
def innerText (quotes : Nat) (text : String) : List Char :=
  (text.toList.drop quotes).take (text.length - 2 * quotes)

def stringText (token : Token) : Parser String :=
  if token.kind = .blockString then
    match decodeBlockString (innerText 3 token.text) with
    | some text => return String.ofList text
    | none => fail .tornBlockString
  else
    match decodeString (innerText 1 token.text) with
    | .ok text => return String.ofList text
    | .error fault => complain token.position (.escape fault)

def string : Parser String := do stringText (← token isString)

def description : Parser (Option String) := perhaps isString string

/-- The bounds of integers. -/
def greatestInt : Int := 9223372036854775807

def leastInt : Int := -9223372036854775808

/-- The number an integer token stands for. -/
def integerOfText (text : List Char) : Int :=
  match text with
  | '-' :: digits => -(Number.natOfDigits digits : Int)
  | digits => Number.natOfDigits digits

def intValue (token : Token) : Parser Value :=
  let value := integerOfText token.text.toList
  if greatestInt < value then complain token.position .integerTooLarge
  else if value < leastInt then complain token.position .integerTooSmall
  else return .int value

def floatValue (token : Token) : Parser Value :=
  match Number.readBinary64 token.text.toList with
  | some value => return .float value
  | none => complain token.position .noFloat

/-! ## Values -/

/-- The value of a name that stands alone. -/
def nameValue : String → Value
  | "true" => .boolean true
  | "false" => .boolean false
  | "null" => .null
  | name => .enum name

def isLeaf (token : Token) : Bool := token.kind != .punctuator

/-- Whether a token can start a value; variables only where they are allowed. -/
def startsValue (allowVariables : Bool) (token : Token) : Bool :=
  isLeaf token || isPunct "[" token || isPunct "\x7b" token || (allowVariables && isPunct "$" token)

def leafValue : Parser Value := do
  let first ← token isLeaf
  match first.kind with
  | .name => return nameValue first.text
  | .int => intValue first
  | .float => floatValue first
  | _ => return .string (← stringText first)

def insertEntry (key : String) (value : Value) : List (String × Value) → List (String × Value)
  | [] => [(key, value)]
  | (other, kept) :: rest =>
    if key < other then (key, value) :: (other, kept) :: rest
    else if key = other then (key, value) :: rest
    else (other, kept) :: insertEntry key value rest

/-- Entries in the order of their keys; the last of a repeated key counts. -/
def sortEntries (entries : List (String × Value)) : List (String × Value) :=
  entries.foldl (fun sorted entry => insertEntry entry.1 entry.2 sorted) []

/-- Reads a value with at most `depth` brackets open in it. -/
def value (allowVariables : Bool) : (depth : Nat) → Parser Value
  | 0 => leafValue
  | depth + 1 => do
    if ← atToken (isPunct "[") then
      punct "["
      let items ← many (startsValue allowVariables) (value allowVariables depth)
      punct "]"
      return .list items
    else if ← atToken (isPunct "\x7b") then
      punct "\x7b"
      let entries ← many isName (do
        let key ← name
        punct ":"
        return (key, ← value allowVariables depth))
      punct "\x7d"
      return .object (sortEntries entries)
    else if allowVariables && (← atToken (isPunct "$")) then
      punct "$"
      return .variable (← name)
    else leafValue

/-! ## Types and what is written around them -/

def typeRef : (depth : Nat) → Parser TypeRef
  | 0 => return .named (← name)
  | depth + 1 => do
    let inner ← (do
      if ← atToken (isPunct "[") then
        punct "["
        let inner ← typeRef depth
        punct "]"
        return .list inner
      else return .named (← name))
    match ← perhaps (isPunct "!") (punct "!") with
    | some _ => return .nonNull inner
    | none => return inner

def directiveUse : Parser Directive := do
  punct "@"
  let called ← name
  let arguments ← perhaps (isPunct "(") (do
    punct "("
    let arguments ← many1 isName (do
      let key ← name
      punct ":"
      return (key, ← value true nestingLimit))
    punct ")"
    return arguments)
  return ⟨called, arguments.getD []⟩

def directives : Parser (List Directive) := many (isPunct "@") directiveUse

def startsDescribed (token : Token) : Bool := isString token || isName token

def inputValue : Parser InputValue := do
  let description ← description
  let called ← name
  punct ":"
  let type ← typeRef nestingLimit
  let default ← perhaps (isPunct "=") (do
    punct "="
    value false nestingLimit)
  return ⟨description, called, type, default, ← directives⟩

def arguments : Parser (List InputValue) := do
  let arguments ← perhaps (isPunct "(") (do
    punct "("
    let arguments ← many1 startsDescribed inputValue
    punct ")"
    return arguments)
  return arguments.getD []

def field : Parser Field := do
  let description ← description
  let called ← name
  let arguments ← arguments
  punct ":"
  let type ← typeRef nestingLimit
  return ⟨description, called, arguments, type, ← directives⟩

def enumValue : Parser EnumValue := do
  let description ← description
  let called ← name
  return ⟨description, called, ← directives⟩

/-- One or more items in braces, or nothing at all. -/
def block {α : Type} (item : Parser α) : Parser (List α) := do
  let items ← perhaps (isPunct "\x7b") (do
    punct "\x7b"
    let items ← many1 startsDescribed item
    punct "\x7d"
    return items)
  return items.getD []

def interfaces : Parser (List String) := do
  let names ← perhaps (isKeyword "implements") (do
    discard (keyword "implements")
    separated "&" name)
  return names.getD []

def members : Parser (List String) := do
  let names ← perhaps (isPunct "=") (do
    punct "="
    separated "|" name)
  return names.getD []

/-! ## Definitions -/

/-- The categories with their keywords. -/
def typeKeywords : List (String × TypeKind) :=
  [("scalar", .scalar), ("type", .object), ("interface", .interface), ("union", .union), ("enum", .enum),
   ("input", .inputObject)]

def typeKeyword? (token : Token) : Option TypeKind :=
  if isName token then typeKeywords.lookup token.text else none

/-- Reads a type definition from its keyword on. -/
def typeDefinition (description : Option String) : Parser TypeDefinition := do
  let first ← token fun token => (typeKeyword? token).isSome
  let called ← name
  let finish (directives : List Directive) (body : TypeBody) : TypeDefinition :=
    ⟨first.position, description, called, directives, body⟩
  match (typeKeyword? first).getD .scalar with
  | .scalar => return finish (← directives) .scalar
  | .object =>
    let interfaces ← interfaces
    let directives ← directives
    return finish directives (.object interfaces (← block field))
  | .interface =>
    let interfaces ← interfaces
    let directives ← directives
    return finish directives (.interface interfaces (← block field))
  | .union =>
    let directives ← directives
    return finish directives (.union (← members))
  | .enum =>
    let directives ← directives
    return finish directives (.enum (← block enumValue))
  | .inputObject =>
    let directives ← directives
    return finish directives (.inputObject (← block inputValue))

/-- Whether an extension adds something. The interfaces of an interface do not count. -/
def TypeDefinition.addsSomething (type : TypeDefinition) : Bool :=
  !type.directives.isEmpty || match type.body with
    | .scalar => false
    | .object interfaces fields => !interfaces.isEmpty || !fields.isEmpty
    | .interface _ fields => !fields.isEmpty
    | .union members => !members.isEmpty
    | .enum values => !values.isEmpty
    | .inputObject fields => !fields.isEmpty

def extension : Parser Definition := do
  discard (keyword "extend")
  let addition ← typeDefinition none
  if addition.addsSomething then return .extension addition
  else complain addition.position (.emptyExtension addition.kind)

/-- The operation a name stands for in a schema definition. -/
def operation? (keyword : String) : Option Operation := Operation.all.find? (·.keyword == keyword)

/-- The root named first for an operation. -/
def firstRoot (roots : List (Token × String)) (operation : Operation) : Option String :=
  (roots.find? fun root => root.1.text == operation.keyword).map (·.2)

/-- What is wrong with the names before the colons of a schema definition, in order: one that is no
operation, or an operation that came before. -/
def rootComplaints (seen : List Operation) : List (Token × String) → List Complaint
  | [] => []
  | (token, _) :: rest =>
    match operation? token.text with
    | none => .unexpectedToken token.kind token.text :: rootComplaints seen rest
    | some operation =>
      if seen.contains operation then .duplicateOperation operation :: rootComplaints seen rest
      else rootComplaints (operation :: seen) rest

def schemaDefinition : Parser SchemaDefinition := do
  let first ← keyword "schema"
  let directives ← directives
  punct "\x7b"
  let roots ← many isName (do
    let operation ← token isName
    punct ":"
    return (operation, ← name))
  punct "\x7d"
  let complaints := rootComplaints [] roots
  if complaints.isEmpty then
    return ⟨first.position, directives, firstRoot roots .query, firstRoot roots .mutation,
      firstRoot roots .subscription⟩
  else fail (.complaint first.position complaints)

def directiveLocations : List String :=
  ["QUERY", "MUTATION", "SUBSCRIPTION", "FIELD", "FRAGMENT_DEFINITION", "FRAGMENT_SPREAD",
   "INLINE_FRAGMENT", "VARIABLE_DEFINITION", "SCHEMA", "SCALAR", "OBJECT", "FIELD_DEFINITION",
   "ARGUMENT_DEFINITION", "INTERFACE", "UNION", "ENUM", "ENUM_VALUE", "INPUT_OBJECT",
   "INPUT_FIELD_DEFINITION"]

def directiveLocation : Parser String := do
  let first ← token isName
  if directiveLocations.contains first.text then return first.text
  else complain first.position .noDirectiveLocation

def directiveDefinition (description : Option String) : Parser DirectiveDefinition := do
  let first ← keyword "directive"
  punct "@"
  let called ← name
  let arguments ← arguments
  let repeatable ← perhaps (isKeyword "repeatable") (keyword "repeatable")
  discard (keyword "on")
  let locations ← perhaps (fun token => isPunct "|" token || isName token)
    (separated "|" directiveLocation)
  return ⟨first.position, description, called, arguments, repeatable.isSome, locations.getD []⟩

/-- Words that start a definition which may have a description. -/
def startsDescribedDefinition (token : Token) : Bool :=
  (typeKeyword? token).isSome || isKeyword "directive" token

def startsDefinition (token : Token) : Bool :=
  isString token || startsDescribedDefinition token || isKeyword "schema" token || isKeyword "extend" token

def describedDefinition (description : Option String) : Parser Definition := do
  if ← atToken (isKeyword "directive") then return .directive (← directiveDefinition description)
  else if ← atToken startsDescribedDefinition then return .type (← typeDefinition description)
  else unexpected

def definition : Parser Definition := do
  if ← atToken (isKeyword "schema") then return .schema (← schemaDefinition)
  else if ← atToken (isKeyword "extend") then extension
  else describedDefinition (← description)

/-! ## Documents -/

/-- Reads definitions until the tokens are used up; a token that starts none is refused. -/
def definitions : Parser (List Definition) := do
  let definitions ← many1 startsDefinition definition
  if ← atToken fun _ => true then unexpected else return definitions

/-- The error of a text whose tokens stop at a place. -/
def Failure.toParseError (tokens : Tokens) : Failure → ParseError
  | .endOfTokens =>
    .malformed tokens.stop ((tokens.fault.map Fault.complaints).getD [.unexpectedEnd])
  | .unexpected token => .malformed token.position [.unexpectedToken token.kind token.text]
  | .complaint position complaints => .malformed position complaints
  | .tornBlockString => .tornBlockString

/-- Reads a text of one or more definitions. -/
def parse (text : String) : Except ParseError (List Definition) :=
  let tokens := tokens text
  match definitions tokens.list with
  | .error failure => .error (failure.toParseError tokens)
  | .ok (definitions, _) =>
    if tokens.fault.isSome then .error (.malformed tokens.stop [.expectedEnd]) else .ok definitions

end SchemaFragments.Document
