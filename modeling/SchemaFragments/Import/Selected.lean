import SchemaFragments.Import.Graph
/-!
# Selected definitions

Which definitions of the loaded files go into the combined document: all of the whole files, what
directives of whole files ask for by name, and whatever these refer to.
-/

namespace SchemaFragments.Import

open Document

/-- A definition by the index of its file and its own, with the fields that are kept. -/
structure Selected where
  file : Nat
  definition : Nat
  fields : FieldFilter
deriving DecidableEq, Repr

namespace FieldFilter

def keeps : FieldFilter → String → Bool
  | .all, _ => true
  | .only names, name => names.contains name

/-- Only object types and interfaces lose fields. -/
def applyTo (filter : FieldFilter) : TypeBody → TypeBody
  | .object interfaces fields => .object interfaces (fields.filter (filter.keeps ·.name))
  | .interface interfaces fields => .interface interfaces (fields.filter (filter.keeps ·.name))
  | body => body

end FieldFilter

def restrict (filter : FieldFilter) : Definition → Definition
  | .type type => .type { type with body := filter.applyTo type.body }
  | definition => definition

namespace SchemaFile

def types (file : SchemaFile) : List TypeDefinition := file.definitions.filterMap (·.type?)

def isTypeNamed (name : String) (definition : Definition) : Bool :=
  definition.type?.any (·.name == name)

/-- The index of the first type definition with a name. -/
def typeIndex? (file : SchemaFile) (name : String) : Option Nat :=
  file.definitions.findIdx? (isTypeNamed name)

end SchemaFile

/-! ## Looking up -/

/-- The definition that a selection is about, with the fields it keeps. -/
def Selected.definition? (files : List SchemaFile) (selected : Selected) : Option Definition := do
  return restrict selected.fields (← (← files[selected.file]?).definitions[selected.definition]?)

def Selected.type? (files : List SchemaFile) (selected : Selected) : Option TypeDefinition :=
  (selected.definition? files).bind (·.type?)

/-- The first type definition with a name in some files, in the order these are given. -/
def findType (files : List SchemaFile) (order : List Nat) (name : String) : Option (Nat × Nat) :=
  order.findSome? fun index => do
    return (index, ← (← files[index]?).typeIndex? name)

/-! ## What is asked for -/

def isSelectable : Definition → Bool
  | .schema _ | .type _ => true
  | .extension _ | .directive _ => false

/-- The schema and type definitions of the whole files. -/
def wholeSelection (files : List SchemaFile) : List Selected :=
  files.zipIdx.flatMap fun (file, fileIndex) =>
    if isWhole files fileIndex then
      file.definitions.zipIdx.filterMap fun (definition, index) =>
        if isSelectable definition then some ⟨fileIndex, index, .all⟩ else none
    else []

/-- What becomes of a type that a directive names: it is looked for in the imported file, then in those
that can be reached from there. -/
def namedType (files : List SchemaFile) (file : SchemaFile) (directive : ResolvedImport)
    (type : String × FieldFilter) : Except Problem Selected :=
  match findType files (reachableFiles files directive.target) type.1 with
  | some (found, index) => .ok ⟨found, index, type.2⟩
  | none =>
    let imported := ((files[directive.target]?).map (·.path)).getD ⟨""⟩
    .error (.missingType ⟨file.path, file.contents, directive.position⟩ type.1 imported)

/-- What becomes of the types that the directives of whole files name. -/
def namedTypes (files : List SchemaFile) : List (Except Problem Selected) :=
  files.zipIdx.flatMap fun (file, index) =>
    if isWhole files index then
      file.imports.flatMap fun directive =>
        match directive.selection with
        | .wholeFile => []
        | .types types => types.map (namedType files file directive)
    else []

/-- Adds a selection to others; a definition that is there already keeps the fields of both. -/
def addSelected (selected : List Selected) (new : Selected) : List Selected :=
  if selected.any fun old => old.file == new.file && old.definition == new.definition then
    selected.map fun old =>
      if old.file = new.file ∧ old.definition = new.definition then
        { old with fields := old.fields.merge new.fields }
      else old
  else selected ++ [new]

/-! ## What these refer to -/

/-- The names of the types that the files define, the built-in scalars left out. -/
def definedNames (files : List SchemaFile) : List String :=
  (files.flatMap fun file => file.types.map (·.name)).filter (· ∉ builtInScalars)

def firstType (files : List SchemaFile) (name : String) : Option Selected :=
  (findType files (List.range files.length) name).map fun (file, index) => ⟨file, index, .all⟩

def referencesOfName (files : List SchemaFile) (name : String) : List String :=
  (((firstType files name).bind (·.type? files)).map (·.references)).getD []

/-- The types that a selection refers to, directly or through others, and does not hold itself. -/
def referredTypes (files : List SchemaFile) (selected : List Selected) : List Selected :=
  let types := selected.filterMap (·.type? files)
  let names := types.map (·.name)
  let met := depthFirst (definedNames files) (referencesOfName files) (types.flatMap (·.references)) names
  (met.drop names.length).filterMap (firstType files)

/-! ## The selection -/

/-- The order of the combined document: by file, then by place in the file. -/
def Selected.before (a b : Selected) : Bool :=
  a.file < b.file || (a.file == b.file && a.definition ≤ b.definition)

def select (files : List SchemaFile) : Except (List Problem) (List Selected) :=
  let named := namedTypes files
  let problems := named.filterMap fun
    | .error problem => some problem
    | .ok _ => none
  if problems.isEmpty then
    let asked := (named.filterMap Except.toOption).foldl addSelected (wholeSelection files)
    .ok ((asked ++ referredTypes files asked).mergeSort Selected.before)
  else .error problems

end SchemaFragments.Import
