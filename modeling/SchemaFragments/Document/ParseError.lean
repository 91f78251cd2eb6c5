import SchemaFragments.Document.Token
import SchemaFragments.Document.StringLiteral
import SchemaFragments.Text.Quoted
/-!
# Parse errors

What keeps a text from being a schema document, and the one line that reports it.
-/

namespace SchemaFragments.Document

/-- One complaint about a place in a text. -/
inductive Complaint where
  | unexpectedToken (kind : TokenKind) (text : String)
  | unreadableToken (fault : Fault)
  | unexpectedEnd
  | expectedEnd
  | tooDeep
  | integerTooLarge
  | integerTooSmall
  | noFloat
  | escape (fault : EscapeFault)
  | noDirectiveLocation
  | duplicateOperation (operation : Operation)
  | emptyExtension (kind : TypeKind)
deriving DecidableEq, Repr

/-- Why a text is not read. -/
inductive ParseError where
  | malformed (position : Position) (complaints : List Complaint)
  /-- The indent of a block string ends inside a character: there is no text to go on with, and whoever
  reads the document has to give up without a report. -/
  | tornBlockString
deriving DecidableEq, Repr

/-! ## Wording -/

def TokenKind.label : TokenKind → String
  | .punctuator => "Punctuator"
  | .name => "Name"
  | .int => "IntValue"
  | .float => "FloatValue"
  | .string => "StringValue"
  | .blockString => "BlockString"

def Fault.message : Fault → String
  | .character c => "unexpected character " ++ Text.quotedChar c
  | .bareDot => "bare dot '.' is not supported, only \"...\""
  | .integer text => "unsupported integer " ++ Text.quoted text
  | .float text => "unsupported float " ++ Text.quoted text
  | .openString => "unterminated string value"
  | .openBlockString => "unterminated block string value"
  | .tooDeep => "Recursion limit exceeded"

def EscapeFault.message : EscapeFault → String
  | .unknown c => "bad escaped char " ++ Text.quotedChar c
  | .short found => "\\u must have 4 characters after it, only found '" ++ found ++ "'"
  | .noCharacter code => code ++ " is not a valid unicode code point"

/-- What an extension of a category has to add. -/
def missingAddition : TypeKind → String
  | .scalar => "Scalar type extension should contain at least one directive."
  | .object => "Object type extension should contain at least one interface, directive or field."
  | .interface => "Interface type extension should contain at least one directive or field."
  | .union => "Union type extension should contain at least one directive or type."
  | .enum => "Enum type extension should contain at least one directive or value."
  | .inputObject => "Input object type extension should contain at least one directive or field."

def Complaint.message : Complaint → String
  | .unexpectedToken kind text => "Unexpected `" ++ text ++ "[" ++ kind.label ++ "]`"
  | .unreadableToken fault => "Unexpected " ++ fault.message
  | .unexpectedEnd => "Unexpected end of input"
  | .expectedEnd => "Expected end of input"
  | .tooDeep => Fault.tooDeep.message
  | .integerTooLarge => "number too large to fit in target type"
  | .integerTooSmall => "number too small to fit in target type"
  | .noFloat => "invalid float literal"
  | .escape fault => "Unexpected " ++ fault.message
  | .noDirectiveLocation => "invalid directive location"
  | .duplicateOperation operation => "Unexpected duplicate `" ++ operation.keyword ++ "` operation"
  | .emptyExtension kind => "Expected " ++ missingAddition kind

/-- What a fault is reported as. -/
def Fault.complaints : Fault → List Complaint
  | .tooDeep => [.unexpectedEnd, .tooDeep]
  | fault => [.unreadableToken fault]

/-- The words before the position of a parse error. A line with them is no complaint. -/
def positionMarker : String := "Parse error at "

/-- Whether a text holds another one. -/
def contains (part : List Char) : List Char → Bool
  | [] => part.isEmpty
  | c :: rest => part.isPrefixOf (c :: rest) || contains part rest

/-- Pieces of a text between the occurrences of `; `. -/
def splitParts : List Char → List (List Char)
  | ';' :: ' ' :: rest => [] :: splitParts rest
  | c :: rest =>
    match splitParts rest with
    | [] => [[c]]
    | part :: parts => (c :: part) :: parts
  | [] => [[]]

/-- Later parts that only repeat what was expected are left out. -/
def isNotable (part : List Char) : Bool :=
  !("Expected ".toList.isPrefixOf part || part == Complaint.unexpectedEnd.message.toList)

def dropUnnotable : List (List Char) → List (List Char)
  | [] => []
  | first :: others => first :: others.filter isNotable

/-- Complaints in one line: their lines without the white space around them, parted by `; `. -/
def summary (complaints : List Complaint) : String :=
  let text := (complaints.map fun c => c.message.toList ++ ['\n']).flatten
  let lines := (Text.lines text).filter (!contains positionMarker.toList ·)
  let parts := (lines.map Text.trim).filter (!·.isEmpty)
  String.ofList ("; ".toList.intercalate (dropUnnotable (splitParts ("; ".toList.intercalate parts))))

end SchemaFragments.Document
