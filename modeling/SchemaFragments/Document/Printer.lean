import SchemaFragments.Document.Basic
import SchemaFragments.Number.Layout
import SchemaFragments.Text.Blank
import SchemaFragments.Text.Lines
/-!
# Printed definitions

The text of a definition: two spaces of indent, every field, value or root on a line of its own.
-/

namespace SchemaFragments.Document

/-- Floats have the fewest digits that read back, are never written with an exponent, and whole ones have
no point. -/
def floatLayout : Number.Layout :=
  { tie := .up, positional := none, pointZero := false, plusSign := false, infinity := "inf" }

example : floatLayout.write (.finite false 5000000000000000 1) = "10000000000000000" := by decide +kernel
example : floatLayout.write (.finite true 0 0) = "-0" := by decide +kernel

/-! ## Texts -/

def indentation (depth : Nat) : String := String.ofList (List.replicate depth ' ')

/-- Spaces added by every pair of braces. -/
def indentStep : Nat := 2

def isPlain (c : Char) : Bool := 0x20 ≤ c.toNat && c.toNat ≤ 0xffff

/-- A text goes into a block string when it has more than one line and no character that needs a code. -/
def fitsBlock (text : List Char) : Bool :=
  text.contains '\n' && text.all fun c => isPlain c || c == '\n' || c == '\r' || c == '\t'

/-- The code of a character, padded to four decimal places. -/
def decimalCode (c : Char) : List Char :=
  let digits := Nat.toDigits 10 c.toNat
  List.replicate (4 - digits.length) '0' ++ digits

def escapeChar (c : Char) : List Char :=
  if c = '\r' then ['\\', 'r']
  else if c = '\n' then ['\\', 'n']
  else if c = '\t' then ['\\', 't']
  else if c = '"' then ['\\', '"']
  else if c = '\\' then ['\\', '\\']
  else if isPlain c then [c]
  else '\\' :: 'u' :: decimalCode c

/-- Writes escaped quotes for quotes. -/
def escapeQuotes : List Char → List Char
  | '"' :: '"' :: '"' :: rest => '\\' :: '"' :: '"' :: '"' :: escapeQuotes rest
  | c :: rest => c :: escapeQuotes rest
  | [] => []

/-- A line of a block string; one that is all white space is left empty. -/
def printBlockLine (depth : Nat) (line : List Char) : String :=
  if line.all Text.isBlank then "\n"
  else indentation depth ++ String.ofList (escapeQuotes line) ++ "\n"

def printString (depth : Nat) (text : String) : String :=
  if fitsBlock text.toList then
    "\"\"\"\n" ++ String.join ((Text.lines text.toList).map (printBlockLine (depth + indentStep))) ++
      indentation depth ++ "\"\"\""
  else "\"" ++ String.ofList (text.toList.flatMap escapeChar) ++ "\""

/-! ## Values and types -/

mutual

def printValue (depth : Nat) : Value → String
  | .variable name => "$" ++ name
  | .int value => toString value
  | .float value => floatLayout.write value
  | .string text => printString depth text
  | .boolean value => if value then "true" else "false"
  | .null => "null"
  | .enum name => name
  | .list items => "[" ++ ", ".intercalate (printItems depth items) ++ "]"
  | .object entries => "\x7b" ++ ", ".intercalate (printEntries depth entries) ++ "\x7d"

def printItems (depth : Nat) : List Value → List String
  | [] => []
  | item :: rest => printValue depth item :: printItems depth rest

def printEntries (depth : Nat) : List (String × Value) → List String
  | [] => []
  | (key, value) :: rest => (key ++ ": " ++ printValue depth value) :: printEntries depth rest

end

def printType : TypeRef → String
  | .named name => name
  | .list inner => "[" ++ printType inner ++ "]"
  | .nonNull inner => printType inner ++ "!"

def printDirective (depth : Nat) (directive : Directive) : String :=
  " @" ++ directive.name ++
    if directive.arguments.isEmpty then ""
    else "(" ++ ", ".intercalate (printEntries depth directive.arguments) ++ ")"

def printDirectives (depth : Nat) (directives : List Directive) : String :=
  String.join (directives.map (printDirective depth))

/-! ## Parts of definitions -/

/-- A description on a line of its own. -/
def printDescription (depth : Nat) : Option String → String
  | some text => indentation depth ++ printString depth text ++ "\n"
  | none => ""

/-- A description in front of what it describes, on the same line. -/
def printInlineDescription (depth : Nat) : Option String → String
  | some text => printString depth text ++ " "
  | none => ""

def printInputValue (depth : Nat) (input : InputValue) : String :=
  printInlineDescription depth input.description ++ input.name ++ ": " ++ printType input.type ++
    (match input.default with
      | some value => " = " ++ printValue depth value
      | none => "") ++
    printDirectives depth input.directives

def printArguments (depth : Nat) (arguments : List InputValue) : String :=
  if arguments.isEmpty then ""
  else "(" ++ ", ".intercalate (arguments.map (printInputValue depth)) ++ ")"

def printField (depth : Nat) (field : Field) : String :=
  printDescription depth field.description ++ indentation depth ++ field.name ++
    printArguments depth field.arguments ++ ": " ++ printType field.type ++
    printDirectives depth field.directives ++ "\n"

def printEnumValue (depth : Nat) (value : EnumValue) : String :=
  indentation depth ++ printInlineDescription depth value.description ++ value.name ++
    printDirectives depth value.directives ++ "\n"

def printInputField (depth : Nat) (field : InputValue) : String :=
  indentation depth ++ printInputValue depth field ++ "\n"

/-- The end of a header: items in braces, or just the end of the line where there are none. -/
def printBlock {α : Type} (print : Nat → α → String) (items : List α) : String :=
  if items.isEmpty then "\n"
  else " \x7b\n" ++ String.join (items.map (print indentStep)) ++ "\x7d\n"

def printInterfaces (interfaces : List String) : String :=
  if interfaces.isEmpty then "" else " implements " ++ " & ".intercalate interfaces

def printMembers (members : List String) : String :=
  if members.isEmpty then "" else " = " ++ " | ".intercalate members

/-! ## Definitions -/

def printHeader (keyword : String) (type : TypeDefinition) (interfaces : List String) : String :=
  keyword ++ " " ++ type.name ++ printInterfaces interfaces ++ printDirectives 0 type.directives

def printBody (type : TypeDefinition) : String :=
  match type.body with
  | .scalar => printHeader "scalar" type [] ++ "\n"
  | .object interfaces fields => printHeader "type" type interfaces ++ printBlock printField fields
  | .interface interfaces fields => printHeader "interface" type interfaces ++ printBlock printField fields
  | .union members => printHeader "union" type [] ++ printMembers members ++ "\n"
  | .enum values => printHeader "enum" type [] ++ printBlock printEnumValue values
  | .inputObject fields => printHeader "input" type [] ++ printBlock printInputField fields

def TypeDefinition.print (type : TypeDefinition) : String :=
  printDescription 0 type.description ++ printBody type

def printRoot (schema : SchemaDefinition) (operation : Operation) : String :=
  match schema.root operation with
  | some name => indentation indentStep ++ operation.keyword ++ ": " ++ name ++ "\n"
  | none => ""

/-- A schema definition keeps its braces without roots too. -/
def SchemaDefinition.print (schema : SchemaDefinition) : String :=
  "schema" ++ printDirectives 0 schema.directives ++ " \x7b\n" ++
    String.join (Operation.all.map (printRoot schema)) ++ "\x7d\n"

def DirectiveDefinition.print (directive : DirectiveDefinition) : String :=
  printDescription 0 directive.description ++ "directive @" ++ directive.name ++
    printArguments 0 directive.arguments ++ (if directive.repeatable then " repeatable" else "") ++
    (if directive.locations.isEmpty then "" else " on " ++ " | ".intercalate directive.locations) ++ "\n"

def Definition.print : Definition → String
  | .schema definition => definition.print
  | .type definition => definition.print
  | .extension addition => "extend " ++ printBody addition
  | .directive definition => definition.print

/-! ## The last line -/

open Text (EndsLine)

theorem endsLine_append {text : String} (h : EndsLine text.toList) (before : String) :
    EndsLine (before ++ text).toList := by
  rw [String.toList_append]
  exact h.append _

theorem endsLine_lineEnd : EndsLine "\n".toList := rfl

theorem endsLine_close : EndsLine "\x7d\n".toList := rfl

theorem endsLine_printBlock {α : Type} (print : Nat → α → String) (items : List α) :
    EndsLine (printBlock print items).toList := by
  unfold printBlock
  split
  · exact endsLine_lineEnd
  · exact endsLine_append endsLine_close _

theorem endsLine_printBody (type : TypeDefinition) : EndsLine (printBody type).toList := by
  unfold printBody
  cases type.body with
  | scalar | union => exact endsLine_append endsLine_lineEnd _
  | object | interface | enum | inputObject => exact endsLine_append (endsLine_printBlock _ _) _

/-- A printed definition ends its last line. -/
theorem endsLine_print (definition : Definition) : EndsLine definition.print.toList := by
  cases definition with
  | schema => exact endsLine_append endsLine_close _
  | directive => exact endsLine_append endsLine_lineEnd _
  | type | extension => exact endsLine_append (endsLine_printBody _) _

end SchemaFragments.Document
