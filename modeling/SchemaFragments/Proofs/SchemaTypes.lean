import SchemaFragments.Fragment.Basic
import SchemaFragments.Proofs.Discovery
import SchemaFragments.Proofs.Linking
/-!
# Types of a schema

What a document says about its names, and that a schema holds exactly this: every declared type and every
built-in scalar once, under its own category, in the order of discovery, and the candidates among them.
-/

namespace SchemaFragments

open Document

/-! ## What a document says -/

/-- The category a document gives to a name; built-in scalars need no declaration. -/
def categoryOf (document : List Definition) (name : String) : Option TypeKind :=
  if name ∈ builtInScalars then some .scalar
  else ((document.filterMap Definition.type?).find? (·.name == name)).map (·.kind)

def Document.Definition.schema? : Definition → Option SchemaDefinition
  | .schema definition => some definition
  | _ => none

/-- The root type of an operation: what the schema definition names or, without one, the object type that has
the default name. -/
def rootOf (document : List Definition) (operation : Operation) : Option String :=
  match document.findSome? Definition.schema? with
  | some schema => schema.root operation
  | none =>
    if categoryOf document operation.defaultTypeName = some .object then some operation.defaultTypeName else none

/-- Object types that are neither introspection types nor roots. -/
def isCandidate (document : List Definition) (name : String) : Bool :=
  categoryOf document name = some .object ∧ "__".toList.isPrefixOf name.toList = false ∧
    ∀ operation ∈ Operation.all, rootOf document operation ≠ some name

/-! ## Declarations -/

namespace Declarations

variable {declared declared' : Declarations} {document : List Definition}

theorem add_schema {definition : Definition} (h : declared.add definition = .ok declared') :
    declared'.schema = declared.schema.or definition.schema? := by
  unfold add at h
  cases definition with
  | schema schema =>
    dsimp only at h
    split at h <;> cases h
    rename_i hnone
    rw [Option.not_isSome_iff_eq_none.1 hnone]
    rfl
  | type type =>
    dsimp only at h
    split at h
    · cases h
      simp [Definition.schema?]
    · split at h <;> cases h
      simp [Definition.schema?]
  | extension | directive =>
    cases h
    simp [Definition.schema?]

theorem foldlM_add_schema (h : document.foldlM add declared = .ok declared') :
    declared'.schema = declared.schema.or (document.findSome? Definition.schema?) := by
  induction document generalizing declared with
  | nil =>
    cases h
    simp
  | cons definition document ih =>
    rw [List.foldlM_cons] at h
    obtain ⟨next, hadd, h⟩ := exists_ok_of_bind h
    rw [ih h, add_schema hadd, Option.or_assoc, List.findSome?_cons]
    cases definition.schema? <;> rfl

theorem ofDocument_schema (h : ofDocument document = .ok declared) :
    declared.schema = document.findSome? Definition.schema? :=
  foldlM_add_schema h

theorem lookup_builtInKinds {name : String} :
    builtInKinds.lookup name = if name ∈ builtInScalars then some .scalar else none := by
  unfold builtInKinds
  induction builtInScalars with
  | nil => rfl
  | cons builtIn others ih =>
    rw [List.map_cons, List.lookup_cons, ih]
    by_cases he : name = builtIn
    · simp [he]
    · simp [he, beq_eq_false_iff_ne.2 he]

theorem lookup_map_kind (types : List TypeDefinition) (name : String) :
    (types.map fun type => (type.name, type.kind)).lookup name =
      (types.find? (·.name == name)).map (·.kind) := by
  induction types with
  | nil => rfl
  | cons type types ih =>
    rw [List.map_cons, List.lookup_cons, List.find?_cons, ih, Bool.beq_comm]
    cases type.name == name <;> rfl

/-- Names are looked up as the document declares them. -/
theorem lookup_kinds (h : ofDocument document = .ok declared) (name : String) :
    declared.kinds.lookup name = categoryOf document name := by
  rw [kinds, List.lookup_append, lookup_builtInKinds, lookup_map_kind, (ofDocument_ok h).1]
  unfold categoryOf
  split
  · rfl
  · rename_i hb
    rw [Option.none_or, typesOf, List.find?_filter]
    congr 2
    funext type
    by_cases he : type.name = name
    · simp [redeclaresBuiltIn, he, hb]
    · simp [he]

theorem categoryOf_declared (h : ofDocument document = .ok declared) {type : TypeDefinition}
    (ht : type ∈ declared.types) : categoryOf document type.name = some type.kind := by
  obtain ⟨-, hd⟩ := ofDocument_ok h
  rw [Distinct, kinds_names, List.nodup_append] at hd
  obtain ⟨-, hn, hdisjoint⟩ := hd
  -- redeclared scalars are no declared types
  have hb : type.name ∉ builtInScalars := fun hb => hdisjoint _ hb _ (List.mem_map_of_mem ht) rfl
  rw [← lookup_kinds h, kinds, List.lookup_append, lookup_builtInKinds, if_neg hb, lookup_map_kind,
    find?_eq_some_of_nodup hn ht]
  rfl

end Declarations

/-! ## Roots -/

variable {document : List Definition} {declared : Declarations} {roots : Roots}

theorem checkedRoot_ok {kinds : Kinds} {schema : SchemaDefinition} {operation : Operation} {root : Option String}
    (h : checkedRoot kinds schema operation = .ok root) : root = schema.root operation := by
  unfold checkedRoot at h
  split at h
  · rename_i hnone
    rw [hnone, Except.ok.inj h]
  · rename_i name hsome
    rw [hsome]
    split at h <;> cases h
    rfl

theorem rootsOf_get (h : Declarations.ofDocument document = .ok declared)
    (hr : rootsOf declared.kinds declared.schema = .ok roots) (operation : Operation) :
    roots.get operation = rootOf document operation := by
  rw [Declarations.ofDocument_schema h] at hr
  unfold rootOf
  cases hs : document.findSome? Definition.schema? with
  | some schema =>
    rw [hs] at hr
    obtain ⟨query, hq, hr⟩ := exists_ok_of_bind hr
    obtain ⟨mutation, hm, hr⟩ := exists_ok_of_bind hr
    obtain ⟨subscription, hsub, hr⟩ := exists_ok_of_bind hr
    cases hr
    cases operation with
    | query => exact checkedRoot_ok hq
    | mutation => exact checkedRoot_ok hm
    | subscription => exact checkedRoot_ok hsub
  | none =>
    rw [hs] at hr
    cases hr
    cases operation <;> simp only [Roots.get, defaultRoot, Declarations.lookup_kinds h]

theorem Roots.mem_names {name : String} :
    name ∈ roots.names ↔ ∃ operation ∈ Operation.all, roots.get operation = some name :=
  List.mem_filterMap

/-! ## Types -/

theorem map_filterMap_find? {α κ : Type} [BEq κ] [LawfulBEq κ] {key : α → κ} {items : List α} {order : List κ}
    (h : ∀ name ∈ order, name ∈ items.map key) :
    (order.filterMap fun name => items.find? (key · == name)).map key = order := by
  induction order with
  | nil => rfl
  | cons name order ih =>
    obtain ⟨item, hi, rfl⟩ := List.mem_map.1 (h name (by simp))
    obtain ⟨found, hf⟩ : ∃ found, items.find? (key · == key item) = some found :=
      Option.isSome_iff_exists.1 (List.find?_isSome.2 ⟨item, hi, by simp⟩)
    have hkey : key found = key item := by simpa using List.find?_some hf
    rw [List.filterMap_cons, hf]
    dsimp only
    rw [List.map_cons, hkey, ih fun other ho => h other (by simp [ho])]

namespace Schema

variable {schema : Schema}

theorem ofDeclarations_eq_ok (h : ofDeclarations declared = .ok schema) : ∃ roots,
    rootsOf declared.kinds declared.schema = .ok roots ∧ schema = ⟨roots,
      (discoveryOrder roots.names declared.types).filterMap fun name => (typesOf declared).find? (·.name == name)⟩ := by
  obtain ⟨roots, hr, h⟩ := exists_ok_of_bind h
  exact ⟨roots, hr, (Except.ok.inj h).symm⟩

/-- Every name that is discovered has a type. -/
theorem names_of_declarations (h : ofDeclarations declared = .ok schema) :
    schema.types.map (·.name) = discoveryOrder schema.roots.names declared.types := by
  obtain ⟨roots, -, rfl⟩ := ofDeclarations_eq_ok h
  refine map_filterMap_find? fun name hn => ?_
  rw [typesOf_names]
  exact mem_discoveryOrder.1 hn

theorem exists_document_of_parse {text : String} (h : parse text = .ok schema) : ∃ document declared,
    Document.parse text = .ok document ∧ Declarations.ofDocument document = .ok declared ∧
      ofDeclarations declared = .ok schema := by
  obtain ⟨document, hread, h⟩ := exists_ok_of_bind h
  obtain ⟨declared, hdeclared, h⟩ := exists_ok_of_bind h
  refine ⟨document, declared, ?_, hdeclared, h⟩
  cases hr : Document.parse text <;> rw [hr] at hread <;> cases hread
  rfl

theorem typesOf_kinds (declared : Declarations) : (typesOf declared).map (fun type => (type.name, type.kind)) =
    (declared.types.map fun type => (type.name, type.kind)) ++ builtInKinds := by
  simp [typesOf, builtInTypes, builtInKinds, NamedType.link_name, NamedType.link_kind, Function.comp_def]

/-- A type of a schema is of the category that the document gives to its name. -/
theorem categoryOf_type (hd : Declarations.ofDocument document = .ok declared)
    (h : ofDeclarations declared = .ok schema) {type : NamedType} (ht : type ∈ schema.types) :
    categoryOf document type.name = some type.kind := by
  have hp := ofDeclarations_perm (Declarations.ofDocument_ok hd).2 h
  rcases List.mem_append.1 (hp.mem_iff.1 ht) with ht | ht
  · obtain ⟨written, hw, rfl⟩ := List.mem_map.1 ht
    rw [NamedType.link_name, NamedType.link_kind]
    exact Declarations.categoryOf_declared hd hw
  · obtain ⟨builtIn, hb, rfl⟩ := List.mem_map.1 ht
    exact if_pos hb

theorem candidates_eq_filter (hd : Declarations.ofDocument document = .ok declared)
    (h : ofDeclarations declared = .ok schema) :
    schema.candidates = schema.types.filter (isCandidate document ·.name) := by
  rw [candidates_eq]
  refine List.filter_congr fun type ht => ?_
  obtain ⟨roots, hr, rfl⟩ := ofDeclarations_eq_ok h
  rw [isCandidate, categoryOf_type hd h ht, Bool.eq_iff_iff]
  simp only [hasFragments, isRoot, NamedType.isIntrospection, ← rootsOf_get hd hr, decide_eq_true_eq, Bool.and_eq_true,
    beq_iff_eq, Bool.not_eq_true', List.contains_eq_mem, decide_eq_false_iff_not, Roots.mem_names, and_assoc,
    Option.some.injEq, not_exists, not_and, ne_eq]

/-! ## Exactly the declared types -/

/-- The types of a schema are the types that its document declares and the built-in scalars, each once and under
its own category, in the order of discovery. The candidates are those types, in the same order, which the
document makes candidates. -/
theorem parse_types_perm_declared {text : String} (h : parse text = .ok schema) : ∃ document,
    Document.parse text = .ok document ∧
    (∀ operation, schema.roots.get operation = rootOf document operation) ∧
    (schema.types.map fun type => (type.name, type.kind)).Perm
      (((Declarations.typesOf document).map fun type => (type.name, type.kind)) ++ builtInKinds) ∧
    (schema.types.map (·.name)).Nodup ∧
    schema.types.map (·.name) = discoveryOrder schema.roots.names (Declarations.typesOf document) ∧
    schema.candidates = schema.types.filter (isCandidate document ·.name) := by
  obtain ⟨document, declared, hdocument, hd, h⟩ := exists_document_of_parse h
  obtain ⟨htypes, hdistinct⟩ := Declarations.ofDocument_ok hd
  have hp := ofDeclarations_perm hdistinct h
  refine ⟨document, hdocument, ?_, ?_, ?_, ?_, candidates_eq_filter hd h⟩
  · obtain ⟨roots, hr, rfl⟩ := ofDeclarations_eq_ok h
    exact rootsOf_get hd hr
  · rw [← htypes, ← typesOf_kinds]
    exact hp.map _
  · exact (hp.map _).nodup_iff.2 (typesOf_names_nodup hdistinct)
  · rw [← htypes]
    exact names_of_declarations h

/-- A schema with a redeclared scalar, a root that nothing refers to, a type that only refers to itself and one
that is missing. -/
def loneSchema : String :=
  "scalar ID type Lone { self: Lone gone: Gone } type Query { ids: [ID] book: Book } type Book { id: ID }"

theorem loneSchema_perm_declared : ∃ schema document,
    parse loneSchema = .ok schema ∧ Document.parse loneSchema = .ok document ∧
    (schema.types.map fun type => (type.name, type.kind)).Perm
      (((Declarations.typesOf document).map fun type => (type.name, type.kind)) ++ builtInKinds) ∧
    (schema.types.map (·.name)).Nodup ∧ schema.candidates = schema.types.filter (isCandidate document ·.name) ∧
    schema.candidates.map (·.name) = ["Book", "Lone"] := by
  have hrun : (parse loneSchema).toOption.any
      (fun schema => decide (schema.candidates.map (·.name) = ["Book", "Lone"])) = true := by
    simp only [candidates_eq]
    decide +kernel
  obtain ⟨schema, hs, hc⟩ := exists_ok_of_any hrun
  obtain ⟨document, hdocument, -, hp, hn, -, hfilter⟩ := parse_types_perm_declared hs
  exact ⟨schema, document, hs, hdocument, hp, hn, hfilter, of_decide_eq_true hc⟩

end Schema

end SchemaFragments
