import SchemaFragments.Document.ParseError
/-!
# Linked schemas

The named types of a document with their references resolved, and the errors that keep a document from
being linked.
-/

namespace SchemaFragments

/-- A type reference after linking: what is no scalar, enum or object is `unresolvable`. -/
inductive FieldType where
  | scalar (name : String)
  | enum (name : String)
  | object (name : String)
  | list (inner : FieldType)
  | nonNull (inner : FieldType)
  | unresolvable (name : String)
deriving DecidableEq, Repr

/-- What a field selects, without its list and non-null modifiers. -/
inductive Selectable where
  | scalar
  | enum
  | object (name : String)
  | unresolvable
deriving DecidableEq, Repr

def FieldType.resolve : FieldType → Selectable
  | .scalar _ => .scalar
  | .enum _ => .enum
  | .object name => .object name
  | .list inner => inner.resolve
  | .nonNull inner => inner.resolve
  | .unresolvable _ => .unresolvable

structure LinkedField where
  name : String
  type : FieldType
deriving DecidableEq, Repr

/-- A named type; only object types have fields. -/
structure NamedType where
  name : String
  kind : TypeKind
  fields : List LinkedField
deriving DecidableEq, Repr

def NamedType.isIntrospection (type : NamedType) : Bool := "__".toList.isPrefixOf type.name.toList

/-- The root types of a schema. -/
structure Roots where
  query : Option String
  mutation : Option String
  subscription : Option String
deriving DecidableEq, Repr

def Roots.get (roots : Roots) : Operation → Option String
  | .query => roots.query
  | .mutation => roots.mutation
  | .subscription => roots.subscription

/-- The root types that are present, the query root first. -/
def Roots.names (roots : Roots) : List String := Operation.all.filterMap roots.get

/-- Every named type of a document, in the order they are discovered. -/
structure Schema where
  roots : Roots
  types : List NamedType
deriving DecidableEq, Repr

def Schema.isRoot (schema : Schema) (name : String) : Bool := schema.roots.names.contains name

/-- Why a text has no linked schema. -/
inductive LinkError where
  | parse (error : Document.ParseError)
  | duplicateType (name : String) (position : Position)
  | duplicateSchemaDefinition (position : Position)
  | unknownRoot (operation : Operation) (name : String) (position : Position)
  | rootNotObject (operation : Operation) (name : String) (position : Position)
deriving DecidableEq, Repr

namespace LinkError

def title : LinkError → String
  | .parse (.malformed _ complaints) => "malformed schema: " ++ Document.summary complaints
  | .parse .tornBlockString => "malformed schema"
  | .duplicateType name _ => "type `" ++ name ++ "` is defined more than once"
  | .duplicateSchemaDefinition _ => "multiple schema definitions"
  | .unknownRoot operation name _ => "unknown " ++ operation.keyword ++ " root type `" ++ name ++ "`"
  | .rootNotObject operation name _ =>
    operation.keyword ++ " root type `" ++ name ++ "` is not an object type"

def position : LinkError → Option Position
  | .parse (.malformed position _) => some position
  | .parse .tornBlockString => none
  | .duplicateType _ position | .duplicateSchemaDefinition position | .unknownRoot _ _ position
  | .rootNotObject _ _ position => some position

def help : LinkError → Option String
  | .duplicateType .. => some "Type names must be unique across the schema and all of its imports."
  | .duplicateSchemaDefinition _ =>
    some "A schema document may only contain one `schema \x7b ... \x7d` definition."
  | .unknownRoot .. => some "Root operation types must be defined in the schema."
  | .parse _ | .rootNotObject .. => none

end LinkError

end SchemaFragments
