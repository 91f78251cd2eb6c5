import SchemaFragments.Number.Binary64
/-!
# Schema documents

What a text in the schema definition language says: its definitions in order, each with the position of
its keyword.
-/

namespace SchemaFragments

/-- A place in a text; line and column are one based. -/
structure Position where
  line : Nat
  column : Nat
deriving DecidableEq, Repr

/-- The operations a schema has a root type for, in the order a schema definition is written. -/
inductive Operation where
  | query
  | mutation
  | subscription
deriving DecidableEq, Repr

namespace Operation

def all : List Operation := [.query, .mutation, .subscription]

def keyword : Operation → String
  | .query => "query"
  | .mutation => "mutation"
  | .subscription => "subscription"

/-- The root type of an operation where no schema definition names one. -/
def defaultTypeName : Operation → String
  | .query => "Query"
  | .mutation => "Mutation"
  | .subscription => "Subscription"

end Operation

/-- The categories of named types. -/
inductive TypeKind where
  | scalar
  | enum
  | object
  | interface
  | union
  | inputObject
deriving DecidableEq, Repr

/-- The name of a category in introspection. -/
def TypeKind.metaKind : TypeKind → String
  | .scalar => "SCALAR"
  | .enum => "ENUM"
  | .object => "OBJECT"
  | .interface => "INTERFACE"
  | .union => "UNION"
  | .inputObject => "INPUT_OBJECT"

namespace Document

inductive Value where
  | variable (name : String)
  | int (value : Int)
  | float (value : Number.Binary64)
  | string (text : String)
  | boolean (value : Bool)
  | null
  | enum (name : String)
  | list (items : List Value)
  | object (entries : List (String × Value))
deriving Repr

/-- A reference to a type: a name inside any number of list and non-null modifiers. -/
inductive TypeRef where
  | named (name : String)
  | list (inner : TypeRef)
  | nonNull (inner : TypeRef)
deriving DecidableEq, Repr

/-- The name a reference is about. -/
def TypeRef.target : TypeRef → String
  | .named name => name
  | .list inner => inner.target
  | .nonNull inner => inner.target

structure Directive where
  name : String
  arguments : List (String × Value)
deriving Repr

/-- An argument of a field or directive, or a field of an input object. -/
structure InputValue where
  description : Option String
  name : String
  type : TypeRef
  default : Option Value
  directives : List Directive
deriving Repr

structure Field where
  description : Option String
  name : String
  arguments : List InputValue
  type : TypeRef
  directives : List Directive
deriving Repr

structure EnumValue where
  description : Option String
  name : String
  directives : List Directive
deriving Repr

/-- What a type definition says beyond its name. -/
inductive TypeBody where
  | scalar
  | object (interfaces : List String) (fields : List Field)
  | interface (interfaces : List String) (fields : List Field)
  | union (members : List String)
  | enum (values : List EnumValue)
  | inputObject (fields : List InputValue)
deriving Repr

def TypeBody.kind : TypeBody → TypeKind
  | .scalar => .scalar
  | .object .. => .object
  | .interface .. => .interface
  | .union .. => .union
  | .enum .. => .enum
  | .inputObject .. => .inputObject

structure TypeDefinition where
  position : Position
  description : Option String
  name : String
  directives : List Directive
  body : TypeBody
deriving Repr

def TypeDefinition.kind (type : TypeDefinition) : TypeKind := type.body.kind

structure SchemaDefinition where
  position : Position
  directives : List Directive
  query : Option String
  mutation : Option String
  subscription : Option String
deriving Repr

/-- The type a schema definition names for an operation. -/
def SchemaDefinition.root (schema : SchemaDefinition) : Operation → Option String
  | .query => schema.query
  | .mutation => schema.mutation
  | .subscription => schema.subscription

/-- The root types a schema definition names. -/
def SchemaDefinition.roots (schema : SchemaDefinition) : List String :=
  Operation.all.filterMap schema.root

structure DirectiveDefinition where
  position : Position
  description : Option String
  name : String
  arguments : List InputValue
  repeatable : Bool
  locations : List String
deriving Repr

inductive Definition where
  | schema (definition : SchemaDefinition)
  | type (definition : TypeDefinition)
  /-- Adds to a type that is defined elsewhere. -/
  | extension (addition : TypeDefinition)
  | directive (definition : DirectiveDefinition)
deriving Repr

/-- The type definition that a definition is. -/
def Definition.type? : Definition → Option TypeDefinition
  | .type definition => some definition
  | _ => none

/-! ## References -/

/-- Names of the arguments' types, then of the field's own type. -/
def Field.references (field : Field) : List String :=
  field.arguments.map (·.type.target) ++ [field.type.target]

/-- The named types a definition refers to, in the order it is written: interfaces before fields,
arguments before the type of their field. -/
def TypeBody.references : TypeBody → List String
  | .scalar => []
  | .enum _ => []
  | .object interfaces fields => interfaces ++ fields.flatMap (·.references)
  | .interface interfaces fields => interfaces ++ fields.flatMap (·.references)
  | .union members => members
  | .inputObject fields => fields.map (·.type.target)

def TypeDefinition.references (type : TypeDefinition) : List String := type.body.references

/-- The five scalars that need no definition. -/
def builtInScalars : List String := ["ID", "String", "Int", "Float", "Boolean"]

end Document

end SchemaFragments
