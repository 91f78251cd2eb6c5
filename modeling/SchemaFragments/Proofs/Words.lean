import SchemaFragments.Proofs.DocumentNames
import SchemaFragments.Proofs.Numerals
/-!
# Words of printed definitions

What a printed definition consists of besides blanks and commas: a word for every token. Here a definition
is taken apart into its words without a text, and the words say which of them are read again. All of a
parsed definition are, but for floats that are written as an integer out of range or as minus infinity, and
block strings whose least indent ends inside a character of some line.
-/

namespace SchemaFragments.Document

/-- The least indent of the lines that are not all white space. -/
def leastIndent (lines : List (List Char)) : Option Nat := ((lines.filter (!isWhite ·)).map indentBytes).min?

/-- The least indent ends inside no character of a line that has one. -/
def Aligned (lines : List (List Char)) : Prop :=
  ∀ bytes ∈ leastIndent lines, ∀ line ∈ lines, isWhite line = false → (dropBytes bytes line).isSome = true

instance : DecidablePred Aligned := fun _ => inferInstanceAs (Decidable (∀ _ ∈ _, _))

/-- A printed token, with the value it is printed from. -/
inductive Word where
  | punct (c : Char)
  | name (text : String)
  | int (value : Int)
  | float (value : Number.Binary64)
  | string (depth : Nat) (text : String)

namespace Word

def text : Word → List Char
  | .punct c => [c]
  | .name text => text.toList
  | .int value => (toString value).toList
  | .float value => (floatLayout.write value).toList
  | .string depth text => (printString depth text).toList

/-- Infinity is written as a name, and whole floats are written as integers. -/
def kind : Word → TokenKind
  | .punct _ => .punctuator
  | .name _ => .name
  | .int _ => .int
  | .float value =>
    if !value.isFinite then .name else if (Number.writtenWhole? value).isSome then .int else .float
  | .string _ text => if fitsBlock text.toList then .blockString else .string

/-- Whether nothing that follows can belong to the word. -/
def isClosed : Word → Bool
  | .punct _ => true
  | _ => false

/-- What the grammar makes sure of. -/
def WellFormed : Word → Prop
  | .punct c => isPunctuator c = true
  | .name text => IsName text
  | .int value => leastInt ≤ value ∧ value ≤ greatestInt
  | .float _ | .string .. => True

/-- Whether there is a token of the word at all: minus infinity is written as none. -/
def HasToken : Word → Prop
  | .float value => value ≠ .infinite true
  | _ => True

/-- Whether the token of a word has a value. -/
def HasValue : Word → Prop
  | .float value => ∀ n ∈ Number.writtenWhole? value, leastInt ≤ n ∧ n ≤ greatestInt
  | .string _ text => fitsBlock text.toList = true → Aligned (Text.lines text.toList)
  | _ => True

instance : DecidablePred HasToken
  | .float value => inferInstanceAs (Decidable (value ≠ .infinite true))
  | .punct _ | .name _ | .int _ | .string .. => inferInstanceAs (Decidable True)

instance : DecidablePred HasValue
  | .float value => inferInstanceAs (Decidable (∀ n ∈ Number.writtenWhole? value, leastInt ≤ n ∧ n ≤ greatestInt))
  | .string _ text => inferInstanceAs (Decidable (fitsBlock text.toList = true → Aligned (Text.lines text.toList)))
  | .punct _ | .name _ | .int _ => inferInstanceAs (Decidable True)

end Word

/-- The token of a word at a place. -/
def Word.token (word : Word) (position : Position) : Token := ⟨word.kind, String.ofList word.text, position⟩

/-- A token is the one of a word, wherever it stands. -/
def Word.Is (word : Word) (token : Token) : Prop := ∃ position, token = word.token position

/-! ## Values and types -/

mutual

def Value.words (depth : Nat) : Value → List Word
  | .variable name => [.punct '$', .name name]
  | .int value => [.int value]
  | .float value => [.float value]
  | .string text => [.string depth text]
  | .boolean value => [.name (if value then "true" else "false")]
  | .null => [.name "null"]
  | .enum name => [.name name]
  | .list items => .punct '[' :: (itemsWords depth items ++ [.punct ']'])
  | .object entries => .punct '\x7b' :: (entriesWords depth entries ++ [.punct '\x7d'])

def itemsWords (depth : Nat) : List Value → List Word
  | [] => []
  | item :: rest => item.words depth ++ itemsWords depth rest

def entriesWords (depth : Nat) : List (String × Value) → List Word
  | [] => []
  | (key, value) :: rest => .name key :: .punct ':' :: (value.words depth ++ entriesWords depth rest)

end

def TypeRef.words : TypeRef → List Word
  | .named name => [.name name]
  | .list inner => .punct '[' :: (inner.words ++ [.punct ']'])
  | .nonNull inner => inner.words ++ [.punct '!']

def entryWords (depth : Nat) (entry : String × Value) : List Word :=
  .name entry.1 :: .punct ':' :: entry.2.words depth

theorem itemsWords_eq (depth : Nat) (items : List Value) :
    itemsWords depth items = items.flatMap (Value.words depth) := by
  induction items with
  | nil => rfl
  | cons item items ih => rw [itemsWords, ih, List.flatMap_cons]

theorem entriesWords_eq (depth : Nat) (entries : List (String × Value)) :
    entriesWords depth entries = entries.flatMap (entryWords depth) := by
  induction entries with
  | nil => rfl
  | cons entry entries ih => rw [entriesWords, ih, List.flatMap_cons, entryWords, List.cons_append, List.cons_append]

/-- The words of some items in brackets, or none at all. -/
def bracketed {α : Type} (opening closing : Char) (words : α → List Word) (items : List α) : List Word :=
  if items.isEmpty then [] else .punct opening :: (items.flatMap words ++ [.punct closing])

def Directive.words (depth : Nat) (directive : Directive) : List Word :=
  .punct '@' :: .name directive.name :: bracketed '(' ')' (entryWords depth) directive.arguments

def directivesWords (depth : Nat) (directives : List Directive) : List Word :=
  directives.flatMap (·.words depth)

/-! ## Parts of definitions -/

def descriptionWords (depth : Nat) : Option String → List Word
  | some text => [.string depth text]
  | none => []

def defaultWords (depth : Nat) : Option Value → List Word
  | some value => .punct '=' :: value.words depth
  | none => []

def InputValue.words (depth : Nat) (input : InputValue) : List Word :=
  descriptionWords depth input.description ++ .name input.name :: .punct ':' :: (input.type.words ++
    (defaultWords depth input.default ++ directivesWords depth input.directives))

def argumentsWords (depth : Nat) (arguments : List InputValue) : List Word :=
  bracketed '(' ')' (InputValue.words depth) arguments

def Field.words (depth : Nat) (field : Field) : List Word :=
  descriptionWords depth field.description ++ .name field.name :: (argumentsWords depth field.arguments ++
    .punct ':' :: (field.type.words ++ directivesWords depth field.directives))

def EnumValue.words (depth : Nat) (value : EnumValue) : List Word :=
  descriptionWords depth value.description ++ .name value.name :: directivesWords depth value.directives

def blockWords {α : Type} (words : Nat → α → List Word) (items : List α) : List Word :=
  bracketed '\x7b' '\x7d' (words indentStep) items

/-- Names with a punctuator between them, after what stands in front of the first. -/
def separatedWords (front : Word) (separator : Char) : List String → List Word
  | [] => []
  | first :: rest => front :: .name first :: rest.flatMap fun name => [.punct separator, .name name]

def interfacesWords (interfaces : List String) : List Word :=
  separatedWords (.name "implements") '&' interfaces

def membersWords (members : List String) : List Word := separatedWords (.punct '=') '|' members

/-! ## Definitions -/

def headerWords (keyword : String) (type : TypeDefinition) (interfaces : List String) : List Word :=
  .name keyword :: .name type.name :: (interfacesWords interfaces ++ directivesWords 0 type.directives)

def bodyWords (type : TypeDefinition) : List Word :=
  match type.body with
  | .scalar => headerWords "scalar" type []
  | .object interfaces fields => headerWords "type" type interfaces ++ blockWords Field.words fields
  | .interface interfaces fields => headerWords "interface" type interfaces ++ blockWords Field.words fields
  | .union members => headerWords "union" type [] ++ membersWords members
  | .enum values => headerWords "enum" type [] ++ blockWords EnumValue.words values
  | .inputObject fields => headerWords "input" type [] ++ blockWords InputValue.words fields

def TypeDefinition.words (type : TypeDefinition) : List Word :=
  descriptionWords 0 type.description ++ bodyWords type

def rootWords (schema : SchemaDefinition) (operation : Operation) : List Word :=
  match schema.root operation with
  | some name => [.name operation.keyword, .punct ':', .name name]
  | none => []

def SchemaDefinition.words (schema : SchemaDefinition) : List Word :=
  .name "schema" :: (directivesWords 0 schema.directives ++
    .punct '\x7b' :: (Operation.all.flatMap (rootWords schema) ++ [.punct '\x7d']))

/-- The words of a definition that is combined; extensions and directive definitions are not. -/
def Definition.words : Definition → List Word
  | .schema definition => definition.words
  | .type definition => definition.words
  | .extension _ | .directive _ => []

end SchemaFragments.Document
