import SchemaFragments.Proofs.Reprinting
/-!
# What linking reads of a document

Linking reads no descriptions, directives or default values, and positions only to report them; extensions
and directive definitions it skips. So a combined document that is read again links as its definitions do.
-/

namespace SchemaFragments

open Document

/-- An error without the place where it is reported. -/
def LinkError.unplaced : LinkError → LinkError
  | .parse error => .parse error
  | .duplicateType name _ => .duplicateType name ⟨0, 0⟩
  | .duplicateSchemaDefinition _ => .duplicateSchemaDefinition ⟨0, 0⟩
  | .unknownRoot operation name _ => .unknownRoot operation name ⟨0, 0⟩
  | .rootNotObject operation name _ => .rootNotObject operation name ⟨0, 0⟩

theorem mapError_bind {ε α β : Type} (place : ε → ε) (first : Except ε α) (next : α → Except ε β) :
    (first >>= next).mapError place = first.mapError place >>= fun value => (next value).mapError place := by
  cases first <;> rfl

/-! ## Shorter documents -/

/-- What is left of types that are shortened: linking finds their names, categories and references, and gives
types of a schema that are shortened in turn. -/
structure Shortening where
  shorten : TypeDefinition → TypeDefinition
  shortenLinked : NamedType → NamedType
  position : ∀ type, (shorten type).position = ⟨0, 0⟩
  name : ∀ type, (shorten type).name = type.name
  kind : ∀ type, (shorten type).kind = type.kind
  references : ∀ type, (shorten type).references = type.references
  link : ∀ kinds type, NamedType.link kinds (shorten type) = shortenLinked (.link kinds type)
  linkedName : ∀ type, (shortenLinked type).name = type.name
  builtIn : Schema.builtInTypes.map shortenLinked = Schema.builtInTypes

namespace Shortening

variable (short : Shortening)

/-- Schema definitions keep their roots, and what is no schema or type definition stays as it is. -/
def definition : Definition → Definition
  | .schema definition => .schema definition.bare
  | .type definition => .type (short.shorten definition)
  | definition => definition

def declarations (declared : Declarations) : Declarations :=
  ⟨declared.schema.map SchemaDefinition.bare, declared.types.map short.shorten⟩

def schema (schema : Schema) : Schema := ⟨schema.roots, schema.types.map short.shortenLinked⟩

/-! ### Declarations -/

theorem redeclaresBuiltIn_shorten (type : TypeDefinition) :
    redeclaresBuiltIn (short.shorten type) = redeclaresBuiltIn type := by
  rw [redeclaresBuiltIn, redeclaresBuiltIn, short.kind, short.name]

theorem kinds_declarations (declared : Declarations) : (short.declarations declared).kinds = declared.kinds := by
  rw [Declarations.kinds, Declarations.kinds, declarations, List.map_map]
  simp only [Function.comp_def, short.kind, short.name]

theorem add_definition (declared : Declarations) (definition : Definition) :
    (short.declarations declared).add (short.definition definition) =
      ((declared.add definition).map short.declarations).mapError LinkError.unplaced := by
  cases definition with
  | schema schema =>
    have hsome : (short.declarations declared).schema.isSome = declared.schema.isSome := Option.isSome_map
    simp only [Shortening.definition, Declarations.add, hsome]
    split <;> rfl
  | type type =>
    simp only [Shortening.definition, Declarations.add, redeclaresBuiltIn_shorten, kinds_declarations, short.name,
      short.position]
    split_ifs
    · rfl
    · rfl
    · simp [Except.map, Except.mapError, declarations]
  | extension | directive => rfl

theorem foldlM_add (declared : Declarations) (document : List Definition) :
    (document.map short.definition).foldlM Declarations.add (short.declarations declared) =
      ((document.foldlM Declarations.add declared).map short.declarations).mapError LinkError.unplaced := by
  induction document generalizing declared with
  | nil => rfl
  | cons definition document ih =>
    rw [List.map_cons, List.foldlM_cons, List.foldlM_cons, add_definition]
    cases declared.add definition with
    | error error => rfl
    | ok next => exact ih next

/-! ### Schemas -/

theorem map_name (declared : List TypeDefinition) :
    (declared.map short.shorten).map (·.name) = declared.map (·.name) := by
  rw [List.map_map]
  exact List.map_congr_left fun type _ => short.name type

theorem referencesOf_shorten (declared : List TypeDefinition) (name : String) :
    referencesOf (declared.map short.shorten) name = referencesOf declared name := by
  rw [referencesOf, referencesOf, List.find?_map, Option.map_map]
  simp only [Function.comp_def, short.references, short.name]

theorem discoveryOrder_shorten (roots : List String) (declared : List TypeDefinition) :
    discoveryOrder roots (declared.map short.shorten) = discoveryOrder roots declared := by
  rw [discoveryOrder, discoveryOrder, short.map_name, funext (short.referencesOf_shorten declared)]

theorem checkedRoot_bare (kinds : Kinds) (schema : SchemaDefinition) (operation : Operation) :
    checkedRoot kinds schema.bare operation = (checkedRoot kinds schema operation).mapError LinkError.unplaced := by
  have hroot : schema.bare.root operation = schema.root operation := by cases operation <;> rfl
  unfold checkedRoot
  rw [hroot]
  cases schema.root operation with
  | none => rfl
  | some name =>
    dsimp only
    cases kinds.lookup name with
    | none => rfl
    | some kind => cases kind <;> rfl

theorem rootsOf_bare (kinds : Kinds) (schema : Option SchemaDefinition) :
    rootsOf kinds (schema.map SchemaDefinition.bare) = (rootsOf kinds schema).mapError LinkError.unplaced := by
  cases schema with
  | none => rfl
  | some schema =>
    simp only [Option.map_some, rootsOf, mapError_bind, checkedRoot_bare]
    rfl

theorem find?_shortenLinked (types : List NamedType) (name : String) :
    (types.map short.shortenLinked).find? (·.name == name) =
      (types.find? (·.name == name)).map short.shortenLinked := by
  rw [List.find?_map]
  simp only [Function.comp_def, short.linkedName]

theorem ofDeclarations_declarations (declared : Declarations) :
    Schema.ofDeclarations (short.declarations declared) =
      ((Schema.ofDeclarations declared).map short.schema).mapError LinkError.unplaced := by
  have htypes : (declared.types.map short.shorten).map (NamedType.link declared.kinds) ++ Schema.builtInTypes =
      (declared.types.map (NamedType.link declared.kinds) ++ Schema.builtInTypes).map short.shortenLinked := by
    rw [List.map_append, short.builtIn, List.map_map, List.map_map]
    exact congrArg (· ++ _) (List.map_congr_left fun type _ => short.link _ type)
  rw [Schema.ofDeclarations, Schema.ofDeclarations, kinds_declarations]
  simp only [declarations, htypes, rootsOf_bare, discoveryOrder_shorten, find?_shortenLinked]
  cases rootsOf declared.kinds declared.schema with
  | error error => rfl
  | ok roots => simp [bind, Except.bind, pure, Except.pure, Except.map, Except.mapError, schema, List.map_filterMap]

/-- A document that is shortened links to the shortened schema, and errors lose their places. -/
theorem ofDocument_map (document : List Definition) : Schema.ofDocument (document.map short.definition) =
    ((Schema.ofDocument document).map short.schema).mapError LinkError.unplaced := by
  have hdeclared : Declarations.ofDocument (document.map short.definition) =
      ((Declarations.ofDocument document).map short.declarations).mapError LinkError.unplaced :=
    short.foldlM_add .empty document
  rw [Schema.ofDocument, Schema.ofDocument, hdeclared]
  cases Declarations.ofDocument document with
  | error error => rfl
  | ok declared => exact short.ofDeclarations_declarations declared

end Shortening

/-! ## Bare documents -/

namespace Document

theorem kind_bare (type : TypeDefinition) : type.bare.kind = type.kind := by
  obtain ⟨position, description, name, directives, body⟩ := type
  cases body <;> rfl

theorem references_bareField (field : Field) : field.bare.references = field.references := by
  simp [Field.bare, Field.references, InputValue.bare]

theorem references_bare (type : TypeDefinition) : type.bare.references = type.references := by
  obtain ⟨position, description, name, directives, body⟩ := type
  cases body <;> simp [TypeDefinition.bare, TypeBody.bare, TypeDefinition.references, TypeBody.references,
    List.flatMap_map, references_bareField, InputValue.bare]

end Document

theorem NamedType.link_bare (kinds : Kinds) (type : TypeDefinition) :
    NamedType.link kinds type.bare = NamedType.link kinds type := by
  obtain ⟨position, description, name, directives, body⟩ := type
  cases body <;> simp [NamedType.link, TypeDefinition.bare, TypeBody.bare, TypeBody.kind, LinkedField.link, Field.bare]

/-- Bare types link to the same types of a schema. -/
def Shortening.bare : Shortening where
  shorten := TypeDefinition.bare
  shortenLinked := id
  position _ := rfl
  name _ := rfl
  kind := kind_bare
  references := references_bare
  link := NamedType.link_bare
  linkedName _ := rfl
  builtIn := List.map_id _

theorem Declarations.foldlM_add_filter (declared : Declarations) (document : List Definition) :
    (document.filter Import.isSelectable).foldlM add declared = document.foldlM add declared := by
  induction document generalizing declared with
  | nil => rfl
  | cons definition document ih =>
    cases definition with
    | schema | type =>
      rw [List.filter_cons_of_pos rfl, List.foldlM_cons, List.foldlM_cons]
      exact congrArg _ (funext ih)
    | extension | directive => exact ih declared

namespace Schema

/-- A bare document links as the document does, but for the places of errors. -/
theorem ofDocument_bare (document : List Definition) :
    ofDocument (document.map Definition.bare) = (ofDocument document).mapError LinkError.unplaced := by
  have hmap : document.map Definition.bare = document.map Shortening.bare.definition :=
    List.map_congr_left fun definition _ => by cases definition <;> rfl
  rw [hmap, Shortening.ofDocument_map]
  cases ofDocument document with
  | error error => rfl
  | ok schema => simp [Except.map, Except.mapError, Shortening.schema, Shortening.bare]

theorem ofDocument_filter (document : List Definition) :
    ofDocument (document.filter Import.isSelectable) = ofDocument document := by
  rw [ofDocument, ofDocument, Declarations.ofDocument, Declarations.ofDocument, Declarations.foldlM_add_filter]

theorem parse_of_document {text : String} {document : List Definition} (h : Document.parse text = .ok document) :
    parse text = ofDocument document := by
  rw [parse, h]
  rfl

end Schema

/-! ## Combined documents -/

namespace Import

/-- Definitions that are read again are read as they were, apart from what linking does not read. -/
theorem exists_read_of_spells {document : List Definition} {text : String} (hne : document ≠ [])
    (h : ∀ definition ∈ document, Emittable definition) (hspells : Spells text.toList (documentWords document))
    (hall : ∀ definition ∈ document, definition.Rereadable) :
    ∃ read, Document.parse text = .ok read ∧ read.map Definition.bare = document.map Definition.bare := by
  refine parse_of_spells hne (fun d hd => (h d hd).1) (fun d hd => (h d hd).2) hspells fun word hw => ?_
  obtain ⟨definition, hd, hword⟩ := List.mem_flatMap.1 hw
  exact hall definition hd word hword

theorem contents_combine_of_emitted_eq_nil {files : List SchemaFile} {selected : List Selected}
    (h : emitted files selected = []) : (Source.combine files selected).contents = "" := by
  rw [emitted, List.map_eq_nil_iff] at h
  rw [Source.combine, h]
  rfl

/-- Either a combined document is not read again, or it links as its definitions do. -/
theorem parse_combine {files : List SchemaFile} {selected : List Selected}
    (h : ∀ definition ∈ emitted files selected, Emittable definition) :
    (emitted files selected ≠ [] ∧ ∀ definition ∈ emitted files selected, definition.Rereadable) ∧
        (Schema.parse (Source.combine files selected).contents).mapError LinkError.unplaced =
          (Schema.ofDocument (emitted files selected)).mapError LinkError.unplaced ∨
      ¬ (emitted files selected ≠ [] ∧ ∀ definition ∈ emitted files selected, definition.Rereadable) ∧
        ∃ error, Schema.parse (Source.combine files selected).contents = .error (.parse error) := by
  have hrefused (hparse : ¬ ∃ read, Document.parse (Source.combine files selected).contents = .ok read) :
      ∃ error, Schema.parse (Source.combine files selected).contents = .error (.parse error) := by
    simp only [Schema.parse_eq_parse_error_iff]
    cases hp : Document.parse (Source.combine files selected).contents with
    | error error => exact ⟨error, rfl⟩
    | ok read => exact absurd ⟨read, hp⟩ hparse
  by_cases hne : emitted files selected = []
  · refine .inr ⟨fun hread => hread.1 hne, hrefused ?_⟩
    have hempty : (Document.parse "").toOption.isSome = false := by decide +kernel
    rintro ⟨read, hread⟩
    rw [contents_combine_of_emitted_eq_nil hne] at hread
    rw [hread] at hempty
    cases hempty
  · have hiff := exists_parse_iff hne (fun d hd => (h d hd).1) (fun d hd => (h d hd).2) (spells_combine h)
    by_cases hall : ∀ definition ∈ emitted files selected, definition.Rereadable
    · obtain ⟨read, hread, hbare⟩ := exists_read_of_spells hne h (spells_combine h) hall
      refine .inl ⟨⟨hne, hall⟩, ?_⟩
      rw [Schema.parse_of_document hread, ← Schema.ofDocument_bare, ← Schema.ofDocument_bare, hbare]
    · exact .inr ⟨fun hread => hall hread.2, hrefused fun hread => hall (hiff.1 hread)⟩

end Import

end SchemaFragments
