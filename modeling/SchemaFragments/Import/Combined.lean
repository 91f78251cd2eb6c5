import SchemaFragments.Document.Printer
import SchemaFragments.Import.Selected
import SchemaFragments.Schema.Link
/-!
# Combined documents

The selected definitions as one text, and the way back from a place in it to the file it came from.
-/

namespace SchemaFragments.Import

open Document

/-! ## Merging roots -/

/-- The names of types whose definitions are merged. -/
def rootNames (definitions : List Definition) : List String :=
  Operation.all.map (·.defaultTypeName) ++ definitions.flatMap fun
    | .schema schema => schema.roots
    | _ => []

/-- Appends the strings that are not there yet. -/
def mergeNames (names more : List String) : List String := FieldFilter.addNames names more

/-- Appends the fields whose names are not there yet. -/
def mergeFields (fields more : List Field) : List Field :=
  more.foldl (fun fields field =>
    if fields.any (·.name == field.name) then fields else fields ++ [field]) fields

/-- Adds interfaces and fields of a later definition to an object type. -/
def mergeObject (interfaces : List String) (fields : List Field) (definition : Definition) : Definition :=
  match definition with
  | .type type =>
    match type.body with
    | .object interfaces' fields' =>
      .type { type with body := .object (mergeNames interfaces' interfaces) (mergeFields fields' fields) }
    | _ => definition
  | _ => definition

/-- The name, interfaces and fields of an object type. -/
def objectParts? (definition : Definition) : Option (String × List String × List Field) := do
  let type ← definition.type?
  match type.body with
  | .object interfaces fields => some (type.name, interfaces, fields)
  | _ => none

def isObjectNamed (name : String) (definition : Definition) : Bool :=
  (objectParts? definition).any (·.1 == name)

/-- A definition with the index of its file. -/
abbrev Origin := Nat × Definition

/-- Appends a definition; an object type with the name of a root goes into the earlier one of that name. -/
def emit (roots : List String) (emitted : List Origin) (next : Origin) : List Origin :=
  match objectParts? next.2 with
  | some (name, interfaces, fields) =>
    match emitted.findIdx? fun origin => roots.contains name && isObjectNamed name origin.2 with
    | some index =>
      emitted.modify index fun origin => (origin.1, mergeObject interfaces fields origin.2)
    | none => emitted ++ [next]
  | none => emitted ++ [next]

def mergeRoots (definitions : List Origin) : List Origin :=
  definitions.foldl (emit (rootNames (definitions.map (·.2)))) []

/-! ## The text -/

/-- Where a definition is in the combined text, and where it was in its own file. -/
structure Segment where
  file : Nat
  startLine : Nat
  lineCount : Nat
  position : Position
deriving DecidableEq, Repr

/-- The position of a definition; extensions and directive definitions are not combined. -/
def positionOf : Definition → Position
  | .schema definition => definition.position
  | .type definition => definition.position
  | .extension _ | .directive _ => ⟨0, 0⟩

/-- A schema with its imports, as one text. -/
structure Source where
  files : List SchemaFile
  contents : String
  segments : List Segment
deriving Repr

namespace Source

/-- Appends a definition, an empty line before it unless it is the first. A line end that is missing is added. -/
def push (source : Source) (origin : Origin) : Source :=
  let text := origin.2.print
  let before := if source.contents.isEmpty then "" else source.contents ++ "\n"
  let segment : Segment :=
    { file := origin.1
      startLine := before.toList.count '\n' + 1
      lineCount := max (Text.lines text.toList).length 1
      position := positionOf origin.2 }
  { source with contents := before ++ Text.withLineEnd text, segments := source.segments ++ [segment] }

/-- A printed definition ends its last line, so no line end is added to it. -/
theorem contents_push (source : Source) (origin : Origin) : (source.push origin).contents =
    (if source.contents.isEmpty then "" else source.contents ++ "\n") ++ origin.2.print := by
  rw [push, Text.withLineEnd_of_endsLine (endsLine_print _)]

def combine (files : List SchemaFile) (selected : List Selected) : Source :=
  let definitions := selected.filterMap fun s => (s.definition? files).map (s.file, ·)
  (mergeRoots definitions).foldl push ⟨files, "", []⟩

/-- The segment a position is in; past the end it is the last one. -/
def locate (source : Source) (position : Position) : Option Segment :=
  (source.segments.find? fun segment => position.line < segment.startLine + segment.lineCount).or
    source.segments.getLast?

/-- An error at a position of the combined text, as an error of the definition that stands there. Without
one it is an error of the file everything starts from. -/
def errorAt (source : Source) (title : String) (position : Option Position) (help : Option String) :
    Message :=
  let located := do
    let segment ← source.locate (← position)
    return (← source.files[segment.file]?, segment.position)
  match located, source.files.head? with
  | some (file, position), _ => .inFile title file.path file.contents (some position) help
  | none, some root => .inFile title root.path root.contents none help
  | none, none => ⟨.error, title, none, none⟩

def linkError (source : Source) (error : LinkError) : Message :=
  source.errorAt error.title error.position error.help

end Source

/-- Reads the schema at a path and resolves its imports. -/
def load (tree : FileTree) (path : Path) : Except LoadError Source := do
  let loader ← loadFiles tree path
  if !loader.problems.isEmpty then throw (.problems loader.problems)
  match select loader.files with
  | .error problems => throw (.problems problems)
  | .ok selected => return Source.combine loader.files selected

end SchemaFragments.Import
