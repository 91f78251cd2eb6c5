import SchemaFragments.Proofs.SingleFiles
/-!
# Outlines

What is left of a document when all that compiling does not look at is taken away. Documents with one outline
compile alike: to the same contents, or to the same error about the same name.
-/

namespace SchemaFragments

open Document

/-! ## What is left -/

/-- A field without modifiers and names of arguments. -/
structure FieldOutline where
  name : String
  arguments : List String
  target : String
deriving DecidableEq, Repr

/-- What is left of a type beyond its name. -/
inductive BodyOutline where
  | scalar
  | object (interfaces : List String) (fields : List FieldOutline)
  | interface (interfaces : List String) (fields : List FieldOutline)
  | union (members : List String)
  | enum
  | inputObject (fields : List (String × String))
deriving DecidableEq, Repr

/-- What is left of a definition. -/
inductive DefinitionOutline where
  | schema (query mutation subscription : Option String)
  | type (name : String) (body : BodyOutline)
deriving DecidableEq, Repr

namespace Document

def Field.outline (field : Field) : FieldOutline :=
  ⟨field.name, field.arguments.map (·.type.target), field.type.target⟩

def TypeBody.outline : TypeBody → BodyOutline
  | .scalar => .scalar
  | .object interfaces fields => .object interfaces (fields.map Field.outline)
  | .interface interfaces fields => .interface interfaces (fields.map Field.outline)
  | .union members => .union members
  | .enum _ => .enum
  | .inputObject fields => .inputObject (fields.map fun field => (field.name, field.type.target))

/-- Nothing is left of type extensions and directive definitions. -/
def Definition.outline? : Definition → Option DefinitionOutline
  | .schema definition => some (.schema definition.query definition.mutation definition.subscription)
  | .type definition => some (.type definition.name definition.body.outline)
  | .extension _ | .directive _ => none

end Document

/-- A document without modifiers, descriptions, directives, default values, names of arguments, enum values,
positions, type extensions and directive definitions. -/
def outline (document : List Definition) : List DefinitionOutline := document.filterMap Definition.outline?

/-! ## Definitions with a given outline -/

/-- A value that an argument or a field of an input object may hold. -/
def plainInput (name target : String) : InputValue := ⟨none, name, .named target, none, []⟩

def FieldOutline.plain (field : FieldOutline) : Field :=
  ⟨none, field.name, field.arguments.map (plainInput ""), .named field.target, []⟩

def BodyOutline.plain : BodyOutline → TypeBody
  | .scalar => .scalar
  | .object interfaces fields => .object interfaces (fields.map FieldOutline.plain)
  | .interface interfaces fields => .interface interfaces (fields.map FieldOutline.plain)
  | .union members => .union members
  | .enum => .enum []
  | .inputObject fields => .inputObject (fields.map fun field => plainInput field.1 field.2)

/-- The definition with an outline that says nothing else. -/
def DefinitionOutline.plain : DefinitionOutline → Definition
  | .schema query mutation subscription => .schema ⟨⟨0, 0⟩, [], query, mutation, subscription⟩
  | .type name body => .type ⟨⟨0, 0⟩, none, name, [], body.plain⟩

def Document.TypeDefinition.plain (type : TypeDefinition) : TypeDefinition :=
  ⟨⟨0, 0⟩, none, type.name, [], type.body.outline.plain⟩

/-- A linked reference without its modifiers. -/
def FieldType.stripped : FieldType → FieldType
  | .list inner => inner.stripped
  | .nonNull inner => inner.stripped
  | type => type

def NamedType.stripped (type : NamedType) : NamedType :=
  { type with fields := type.fields.map fun field => ⟨field.name, field.type.stripped⟩ }

/-! ## Linking plain definitions -/

namespace Document

theorem TypeBody.kind_plain (body : TypeBody) : body.outline.plain.kind = body.kind := by
  cases body <;> rfl

theorem Field.references_plain (field : Field) : field.outline.plain.references = field.references := by
  simp [Field.outline, FieldOutline.plain, Field.references, plainInput, TypeRef.target]

/-- The walk over references looks at the types of arguments and fields, and only at the names in them. -/
theorem TypeBody.references_plain (body : TypeBody) : body.outline.plain.references = body.references := by
  cases body <;> simp [TypeBody.outline, BodyOutline.plain, TypeBody.references, List.flatMap_map,
    Field.references_plain, plainInput, TypeRef.target]

end Document

theorem FieldType.link_target (kinds : Kinds) (ref : TypeRef) :
    FieldType.link kinds (.named ref.target) = (FieldType.link kinds ref).stripped := by
  induction ref with
  | named name =>
    -- no name links to a modifier
    simp only [TypeRef.target, FieldType.link]
    split <;> rfl
  | list inner ih => exact ih
  | nonNull inner ih => exact ih

theorem NamedType.link_plain (kinds : Kinds) (type : TypeDefinition) :
    NamedType.link kinds type.plain = (NamedType.link kinds type).stripped := by
  obtain ⟨position, description, name, directives, body⟩ := type
  cases body <;> simp [NamedType.link, TypeDefinition.plain, TypeBody.outline, BodyOutline.plain, TypeBody.kind,
    NamedType.stripped, LinkedField.link, Field.outline, FieldOutline.plain, FieldType.link_target]

/-- Plain definitions of types link to types without modifiers. -/
def Shortening.plain : Shortening where
  shorten := TypeDefinition.plain
  shortenLinked := NamedType.stripped
  position _ := rfl
  name _ := rfl
  kind type := type.body.kind_plain
  references type := type.body.references_plain
  link := NamedType.link_plain
  linkedName _ := rfl
  builtIn := rfl

theorem map_plain_outline (document : List Definition) : (outline document).map DefinitionOutline.plain =
    (document.filter Import.isSelectable).map Shortening.plain.definition := by
  rw [outline, List.map_filterMap, ← List.filterMap_eq_map, List.filterMap_filter]
  refine List.filterMap_congr fun definition _ => ?_
  cases definition <;> rfl

theorem Schema.ofDocument_plain (document : List Definition) :
    Schema.ofDocument ((SchemaFragments.outline document).map DefinitionOutline.plain) =
      ((Schema.ofDocument document).map Shortening.plain.schema).mapError LinkError.unplaced := by
  rw [map_plain_outline, Shortening.ofDocument_map, Schema.ofDocument_filter]

/-! ## Fragments without modifiers -/

theorem FieldType.resolve_stripped (type : FieldType) : type.stripped.resolve = type.resolve := by
  induction type with
  | scalar | enum | object | unresolvable => rfl
  | list inner ih => exact ih
  | nonNull inner ih => exact ih

theorem Fragment.ofType_stripped (variant : Variant) (type : NamedType) :
    Fragment.ofType variant type.stripped = Fragment.ofType variant type := by
  have hselection : (Fragment.selection variant ∘ fun field : LinkedField => ⟨field.name, field.type.stripped⟩) =
      Fragment.selection variant := by
    funext field
    simp only [Function.comp_apply, Fragment.selection, FieldType.resolve_stripped]
  simp only [Fragment.ofType, Fragment.bodyOf, Fragment.selections, NamedType.stripped, List.filterMap_map, hselection]

theorem Schema.candidates_stripped (schema : Schema) :
    (Shortening.plain.schema schema).candidates = schema.candidates.map NamedType.stripped := by
  rw [Schema.candidates_eq, Schema.candidates_eq, Shortening.schema, List.filter_map]
  rfl

theorem FragmentSet.ofSchema_stripped (schema : Schema) :
    FragmentSet.ofSchema (Shortening.plain.schema schema) = FragmentSet.ofSchema schema := by
  have heach (variant : Variant) : (Shortening.plain.schema schema).candidates.map (Fragment.ofType variant) =
      schema.candidates.map (Fragment.ofType variant) := by
    rw [Schema.candidates_stripped, List.map_map]
    exact List.map_congr_left fun type _ => Fragment.ofType_stripped variant type
  simp only [FragmentSet.ofSchema, heach]

/-! ## Compiling -/

/-- What becomes of definitions: the contents of their fragments, or an error without its place. -/
def documentOutcome (document : List Definition) (dialect : Dialect) : Except LinkError String :=
  ((Schema.ofDocument document).mapError LinkError.unplaced).map fun schema =>
    (FragmentSet.ofSchema schema).render dialect

theorem LinkError.unplaced_unplaced (error : LinkError) : error.unplaced.unplaced = error.unplaced := by
  cases error <;> rfl

/-- Only the outline of a document decides what becomes of it. -/
theorem documentOutcome_plain (document : List Definition) (dialect : Dialect) :
    documentOutcome ((outline document).map DefinitionOutline.plain) dialect = documentOutcome document dialect := by
  rw [documentOutcome, documentOutcome, Schema.ofDocument_plain]
  cases Schema.ofDocument document with
  | error error => exact congrArg Except.error error.unplaced_unplaced
  | ok schema =>
    exact congrArg (fun fragments : FragmentSet => Except.ok (fragments.render dialect))
      (FragmentSet.ofSchema_stripped schema)

theorem outcome_of_document {text : String} {document : List Definition} (h : Document.parse text = .ok document)
    (dialect : Dialect) : outcome text dialect = documentOutcome document dialect := by
  rw [outcome_eq, Schema.parse_of_document h, documentOutcome]

/-- Texts whose documents have one outline compile alike in each dialect: to the same contents, or to errors
that differ in their places only. -/
theorem outcome_eq_of_outline {text text' : String} {document document' : List Definition}
    (h : Document.parse text = .ok document) (h' : Document.parse text' = .ok document')
    (houtline : outline document = outline document') (dialect : Dialect) :
    outcome text dialect = outcome text' dialect := by
  rw [outcome_of_document h, outcome_of_document h', ← documentOutcome_plain document, houtline,
    documentOutcome_plain document']

def plainBooks : String := "type Query \x7b book(id: ID): Book \x7d
type Book \x7b id: ID tags: Tag \x7d enum Tag \x7b NEW \x7d"

def richBooks : String := "directive @note on FIELD_DEFINITION
type Query \x7b \"One book.\" book(key: ID! = 3): Book! @note \x7d
type Book \x7b id: ID! tags: [Tag!] \x7d extend type Book \x7b more: ID \x7d enum Tag \x7b \"It is old.\" OLD USED \x7d"

/-- Modifiers, names of arguments, values and what only one of the texts holds make no difference. -/
theorem richBooks_compiles_as_plain : (∀ dialect, outcome plainBooks dialect = outcome richBooks dialect) ∧
    (outcome plainBooks .graphql).toOption.isSome = true := by
  have hrun : (Document.parse plainBooks).toOption.any (fun document => (Document.parse richBooks).toOption.any
      fun document' => decide (outline document = outline document')) = true := by decide +kernel
  obtain ⟨document, h, hrun⟩ := exists_ok_of_any hrun
  obtain ⟨document', h', houtline⟩ := exists_ok_of_any hrun
  exact ⟨outcome_eq_of_outline h h' (of_decide_eq_true houtline), by decide +kernel⟩

end SchemaFragments
