import SchemaFragments.Document.Grammar
import SchemaFragments.Schema.Basic
import SchemaFragments.Schema.Discovery
/-!
# Linking

A document links when its type names are unique, it has at most one schema definition and the roots this
names are object types. Type extensions and directive definitions play no part.
-/

namespace SchemaFragments

open Document

/-- The categories of the names declared so far. -/
abbrev Kinds := List (String × TypeKind)

def builtInKinds : Kinds := builtInScalars.map (·, .scalar)

/-- A scalar may be declared again under a built-in name; this changes nothing. -/
def redeclaresBuiltIn (type : TypeDefinition) : Bool :=
  type.kind == .scalar && builtInScalars.contains type.name

/-- What a document declares: its schema definition and its type definitions. -/
structure Declarations where
  schema : Option SchemaDefinition
  types : List TypeDefinition

namespace Declarations

def empty : Declarations := ⟨none, []⟩

def kinds (declared : Declarations) : Kinds :=
  builtInKinds ++ declared.types.map fun type => (type.name, type.kind)

/-- Adds a definition after those before it. -/
def add (declared : Declarations) : Definition → Except LinkError Declarations
  | .schema definition =>
    if declared.schema.isSome then .error (.duplicateSchemaDefinition definition.position)
    else .ok { declared with schema := some definition }
  | .type type =>
    if redeclaresBuiltIn type then .ok declared
    else if (declared.kinds.lookup type.name).isSome then .error (.duplicateType type.name type.position)
    else .ok { declared with types := declared.types ++ [type] }
  | .extension _ | .directive _ => .ok declared

def ofDocument (document : List Definition) : Except LinkError Declarations :=
  document.foldlM add empty

end Declarations

/-- Checks the root a schema definition names for an operation. -/
def checkedRoot (kinds : Kinds) (schema : SchemaDefinition) (operation : Operation) :
    Except LinkError (Option String) :=
  match schema.root operation with
  | none => .ok none
  | some name =>
    match kinds.lookup name with
    | some .object => .ok (some name)
    | some _ => .error (.rootNotObject operation name schema.position)
    | none => .error (.unknownRoot operation name schema.position)

/-- The root of an operation where there is no schema definition. -/
def defaultRoot (kinds : Kinds) (operation : Operation) : Option String :=
  if kinds.lookup operation.defaultTypeName = some .object then some operation.defaultTypeName else none

def rootsOf (kinds : Kinds) : Option SchemaDefinition → Except LinkError Roots
  | some schema => do
    let query ← checkedRoot kinds schema .query
    let mutation ← checkedRoot kinds schema .mutation
    let subscription ← checkedRoot kinds schema .subscription
    return ⟨query, mutation, subscription⟩
  | none => .ok ⟨defaultRoot kinds .query, defaultRoot kinds .mutation, defaultRoot kinds .subscription⟩

def FieldType.link (kinds : Kinds) : TypeRef → FieldType
  | .named name =>
    match kinds.lookup name with
    | some .scalar => .scalar name
    | some .enum => .enum name
    | some .object => .object name
    | _ => .unresolvable name
  | .list inner => .list (link kinds inner)
  | .nonNull inner => .nonNull (link kinds inner)

def LinkedField.link (kinds : Kinds) (field : Field) : LinkedField :=
  ⟨field.name, .link kinds field.type⟩

def NamedType.link (kinds : Kinds) (type : TypeDefinition) : NamedType :=
  match type.body with
  | .object _ fields => ⟨type.name, .object, fields.map (.link kinds)⟩
  | body => ⟨type.name, body.kind, []⟩

namespace Schema

def builtInTypes : List NamedType := builtInScalars.map (⟨·, .scalar, []⟩)

def ofDeclarations (declared : Declarations) : Except LinkError Schema := do
  let kinds := declared.kinds
  let roots ← rootsOf kinds declared.schema
  let types := declared.types.map (.link kinds) ++ builtInTypes
  let order := discoveryOrder roots.names declared.types
  return ⟨roots, order.filterMap fun name => types.find? (·.name == name)⟩

def ofDocument (document : List Definition) : Except LinkError Schema := do
  ofDeclarations (← Declarations.ofDocument document)

/-- Reads and links a text. -/
def parse (text : String) : Except LinkError Schema := do
  ofDocument (← (Document.parse text).mapError LinkError.parse)

end Schema

end SchemaFragments
