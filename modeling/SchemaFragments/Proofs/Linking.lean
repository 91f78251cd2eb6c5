import SchemaFragments.Proofs.Parsed
import SchemaFragments.Proofs.Search
import SchemaFragments.Schema.Link
/-!
# What linking makes sure of

The types of a linked schema are those that its document declares and the built-in scalars, each once. An
object that a field selects is one of these types.
-/

namespace SchemaFragments

open Document

theorem exists_ok_of_bind {ε α β : Type} {first : Except ε α} {next : α → Except ε β} {result : β}
    (h : first >>= next = .ok result) : ∃ value, first = .ok value ∧ next value = .ok result := by
  cases first with
  | error failure => cases h
  | ok value => exact ⟨value, rfl, h⟩

theorem error_of_bind {ε α β : Type} {first : Except ε α} {next : α → Except ε β} {failure : ε}
    (h : first >>= next = .error failure) :
    first = .error failure ∨ ∃ value, first = .ok value ∧ next value = .error failure := by
  cases first with
  | error other =>
    cases h
    exact .inl rfl
  | ok value => exact .inr ⟨value, rfl, h⟩

theorem exists_ok_of_any {ε α : Type} {result : Except ε α} {p : α → Bool}
    (h : result.toOption.any p = true) : ∃ value, result = .ok value ∧ p value = true := by
  cases result with
  | error failure => cases h
  | ok value => exact ⟨value, rfl, h⟩

/-! ## Declarations -/

namespace Declarations

variable {declared declared' : Declarations} {definition : Definition} {document : List Definition}

/-- No name is declared twice, those of the built-in scalars included. -/
def Distinct (declared : Declarations) : Prop := (declared.kinds.map (·.1)).Nodup

theorem kinds_names (declared : Declarations) :
    declared.kinds.map (·.1) = builtInScalars ++ declared.types.map (·.name) := by
  simp [kinds, builtInKinds, Function.comp_def]

/-- The types that definitions declare, without redeclared scalars. -/
def typesOf (document : List Definition) : List TypeDefinition :=
  (document.filterMap Definition.type?).filter (!redeclaresBuiltIn ·)

theorem typesOf_cons (definition : Definition) (document : List Definition) :
    typesOf (definition :: document) = typesOf [definition] ++ typesOf document := by
  rw [typesOf, ← List.singleton_append, List.filterMap_append, List.filter_append]
  rfl

theorem mem_typesOf {type : TypeDefinition} (h : type ∈ typesOf document) :
    ∃ definition ∈ document, definition.type? = some type :=
  List.mem_filterMap.1 (List.mem_filter.1 h).1

theorem lookup_kinds_isSome {name : String} :
    (declared.kinds.lookup name).isSome = true ↔ name ∈ declared.kinds.map (·.1) := by
  rw [List.lookup_isSome_iff, List.mem_map]
  exact exists_congr fun entry => and_congr_right fun _ => by rw [beq_iff_eq, eq_comm]

/-- A definition that can be added declares its type, under a new name. -/
theorem add_ok (h : declared.add definition = .ok declared') :
    declared'.types = declared.types ++ typesOf [definition] ∧ (declared.Distinct → declared'.Distinct) := by
  unfold add at h
  cases definition with
  | schema definition =>
    dsimp only at h
    split at h <;> cases h
    exact ⟨by simp [typesOf, Definition.type?], fun hd => hd⟩
  | type type =>
    dsimp only at h
    by_cases hb : redeclaresBuiltIn type = true
    · rw [if_pos hb] at h
      cases h
      exact ⟨by simp [typesOf, Definition.type?, hb], fun hd => hd⟩
    · rw [if_neg hb] at h
      split at h <;> cases h
      rename_i hnew
      -- the guard looks the name up among the built-in scalars as well
      rw [lookup_kinds_isSome, kinds_names] at hnew
      refine ⟨by simp [typesOf, Definition.type?, hb], fun hd => ?_⟩
      unfold Distinct at hd ⊢
      rw [kinds_names] at hd ⊢
      rw [List.map_append, ← List.append_assoc]
      exact List.nodup_append.2 ⟨hd, by simp, fun name hn other ho he => hnew (by simp_all)⟩
  | extension | directive =>
    cases h
    exact ⟨by simp [typesOf, Definition.type?], fun hd => hd⟩

theorem foldlM_add_ok (h : document.foldlM add declared = .ok declared') :
    declared'.types = declared.types ++ typesOf document ∧ (declared.Distinct → declared'.Distinct) := by
  induction document generalizing declared with
  | nil =>
    cases h
    exact ⟨by simp [typesOf], fun hd => hd⟩
  | cons definition document ih =>
    rw [List.foldlM_cons] at h
    obtain ⟨next, hadd, h⟩ := exists_ok_of_bind h
    obtain ⟨htypes, hdistinct⟩ := add_ok hadd
    obtain ⟨htypes', hdistinct'⟩ := ih h
    exact ⟨by rw [htypes', htypes, List.append_assoc, ← typesOf_cons], fun hd => hdistinct' (hdistinct hd)⟩

theorem empty_distinct : empty.Distinct := by
  simp [Distinct, kinds_names, empty, builtInScalars]

/-- A document declares its types, and no name twice. -/
theorem ofDocument_ok (h : ofDocument document = .ok declared) :
    declared.types = typesOf document ∧ declared.Distinct := by
  obtain ⟨htypes, hdistinct⟩ := foldlM_add_ok h
  exact ⟨by simpa [empty] using htypes, hdistinct empty_distinct⟩

/-- A name of a category other than the built-in scalars' is that of a declared type. -/
theorem exists_of_lookup {name : String} {kind : TypeKind} (h : declared.kinds.lookup name = some kind)
    (hk : kind ≠ .scalar) : ∃ type ∈ declared.types, type.name = name ∧ type.kind = kind := by
  obtain ⟨before, after, he, -⟩ := List.lookup_eq_some_iff.1 h
  have hmem : (name, kind) ∈ declared.kinds := by simp [he]
  rcases List.mem_append.1 hmem with hb | ht
  · obtain ⟨builtIn, -, hb⟩ := List.mem_map.1 hb
    exact absurd (Prod.mk.inj hb).2.symm hk
  · obtain ⟨type, ht, he⟩ := List.mem_map.1 ht
    exact ⟨type, ht, Prod.mk.inj he⟩

end Declarations

/-! ## Discovery -/

section Discovery

variable {roots : List String} {declared : List TypeDefinition}

theorem mem_discoveryOrder {name : String} :
    name ∈ discoveryOrder roots declared ↔ name ∈ declared.map (·.name) ++ builtInScalars := by
  unfold discoveryOrder
  rw [mem_depthFirst]
  refine ⟨fun h => h.mem_known, fun h => .start ?_ h (by simp)⟩
  rw [List.append_assoc]
  exact List.mem_append_right _ h

theorem discoveryOrder_nodup : (discoveryOrder roots declared).Nodup := by
  obtain ⟨found, he, hn, -⟩ := depthFirst_eq_append (declared.map (·.name) ++ builtInScalars)
    (referencesOf declared) (roots ++ declared.map (·.name) ++ builtInScalars) []
  rw [discoveryOrder, he, List.nil_append]
  exact hn

end Discovery

/-! ## Types -/

variable {kinds : Kinds}

theorem NamedType.link_name (type : TypeDefinition) : (NamedType.link kinds type).name = type.name := by
  unfold NamedType.link
  split <;> rfl

theorem NamedType.link_kind (type : TypeDefinition) : (NamedType.link kinds type).kind = type.kind := by
  unfold NamedType.link
  split
  · rename_i he
    rw [TypeDefinition.kind, he, TypeBody.kind]
  · rfl

theorem NamedType.mem_link_fields {type : TypeDefinition} {field : LinkedField}
    (h : field ∈ (NamedType.link kinds type).fields) :
    field.name ∈ type.body.fieldNames ∧ ∃ ref, field.type = .link kinds ref := by
  unfold NamedType.link at h
  split at h
  · rename_i he
    obtain ⟨written, hw, rfl⟩ := List.mem_map.1 h
    rw [he]
    exact ⟨List.mem_map.2 ⟨written, hw, rfl⟩, written.type, rfl⟩
  · cases h

/-- What a linked reference selects is an object only under the name of one. -/
theorem FieldType.lookup_of_link {ref : TypeRef} {name : String}
    (h : (FieldType.link kinds ref).resolve = .object name) : kinds.lookup name = some .object := by
  induction ref with
  | named written =>
    unfold FieldType.link at h
    split at h <;> cases h
    assumption
  | list inner ih => exact ih h
  | nonNull inner ih => exact ih h

theorem find?_eq_some_of_nodup {α κ : Type} [BEq κ] [LawfulBEq κ] {key : α → κ} {items : List α} {item : α}
    (hn : (items.map key).Nodup) (hi : item ∈ items) : items.find? (key · == key item) = some item := by
  obtain ⟨before, after, rfl⟩ := List.append_of_mem hi
  have hb : before.find? (key · == key item) = none := by
    refine List.find?_eq_none.2 fun other ho => ?_
    rw [List.map_append, List.nodup_append] at hn
    simpa using hn.2.2 _ (List.mem_map_of_mem ho) (key item) (by simp)
  rw [List.find?_append, hb]
  simp

/-- Looking up names in another order gives the items in another order. -/
theorem filterMap_find?_perm {α κ : Type} [BEq κ] [LawfulBEq κ] {key : α → κ} {items : List α} {order : List κ}
    (hn : (items.map key).Nodup) (ho : order.Perm (items.map key)) :
    (order.filterMap fun name => items.find? (key · == name)).Perm items := by
  refine (ho.filterMap _).trans (.of_eq ?_)
  rw [List.filterMap_map]
  calc items.filterMap ((fun name => items.find? (key · == name)) ∘ key)
    _ = items.filterMap some := List.filterMap_congr fun item hi => find?_eq_some_of_nodup hn hi
    _ = items := List.filterMap_some

/-! ## Schemas -/

namespace Schema

variable {schema : Schema} {declared : Declarations}

/-- The declared types and the built-in scalars, before they are ordered. -/
def typesOf (declared : Declarations) : List NamedType :=
  declared.types.map (.link declared.kinds) ++ builtInTypes

theorem typesOf_names (declared : Declarations) :
    (typesOf declared).map (·.name) = declared.types.map (·.name) ++ builtInScalars := by
  simp [typesOf, builtInTypes, NamedType.link_name, Function.comp_def]

theorem typesOf_names_nodup (h : declared.Distinct) : ((typesOf declared).map (·.name)).Nodup := by
  unfold Declarations.Distinct at h
  rw [Declarations.kinds_names] at h
  rw [typesOf_names]
  exact List.perm_append_comm.nodup_iff.1 h

theorem ofDeclarations_perm (hd : declared.Distinct) (h : ofDeclarations declared = .ok schema) :
    schema.types.Perm (typesOf declared) := by
  obtain ⟨roots, -, h⟩ := exists_ok_of_bind h
  cases h
  refine filterMap_find?_perm (typesOf_names_nodup hd) ?_
  refine (List.perm_ext_iff_of_nodup discoveryOrder_nodup (typesOf_names_nodup hd)).2 fun name => ?_
  rw [mem_discoveryOrder, typesOf_names]

/-- A schema as linking leaves it: names are unique and names of the language, and the objects that fields
select are types of the schema. -/
structure Linked (schema : Schema) : Prop where
  nodup : (schema.types.map (·.name)).Nodup
  typeName : ∀ type ∈ schema.types, IsName type.name
  fieldName : ∀ type ∈ schema.types, ∀ field ∈ type.fields, IsName field.name
  related : ∀ type ∈ schema.types, ∀ field ∈ type.fields, ∀ name, field.type.resolve = .object name →
    ∃ other ∈ schema.types, other.name = name ∧ other.kind = .object

theorem isName_of_builtIn {name : String} (h : name ∈ builtInScalars) : IsName name := by
  simp only [builtInScalars, List.mem_cons, List.not_mem_nil, or_false] at h
  rcases h with rfl | rfl | rfl | rfl | rfl <;> decide

theorem linked_of_declarations (hd : declared.Distinct) (hn : ∀ type ∈ declared.types, WellNamed type)
    (h : ofDeclarations declared = .ok schema) : schema.Linked := by
  have hp := ofDeclarations_perm hd h
  refine ⟨(hp.map _).nodup_iff.2 (typesOf_names_nodup hd), fun type ht => ?_, fun type ht field hf => ?_,
    fun type ht field hf name hr => ?_⟩
  -- a type is a declared one or a built-in scalar, which has no fields
  all_goals rcases List.mem_append.1 (hp.mem_iff.1 ht) with ht | ht
  all_goals obtain ⟨written, hw, rfl⟩ := List.mem_map.1 ht
  · rw [NamedType.link_name]
    exact (hn written hw).1
  · exact isName_of_builtIn hw
  · exact (hn written hw).2 _ (NamedType.mem_link_fields hf).1
  · cases hf
  · obtain ⟨-, ref, href⟩ := NamedType.mem_link_fields hf
    rw [href] at hr
    obtain ⟨other, ho, rfl, hk⟩ := Declarations.exists_of_lookup (FieldType.lookup_of_link hr) (by decide)
    refine ⟨.link declared.kinds other, hp.mem_iff.2 ?_, NamedType.link_name other, ?_⟩
    · exact List.mem_append_left _ (List.mem_map_of_mem ho)
    · rw [NamedType.link_kind, hk]
  · cases hf

/-- Every text that links gives a linked schema. -/
theorem linked_of_parse {text : String} (h : parse text = .ok schema) : schema.Linked := by
  obtain ⟨document, hread, h⟩ := exists_ok_of_bind h
  have hparse : Document.parse text = .ok document := by
    cases hr : Document.parse text <;> rw [hr] at hread <;> cases hread
    rfl
  obtain ⟨declared, hdeclared, h⟩ := exists_ok_of_bind h
  obtain ⟨htypes, hdistinct⟩ := Declarations.ofDocument_ok hdeclared
  refine linked_of_declarations hdistinct (fun type ht => ?_) h
  rw [htypes] at ht
  obtain ⟨definition, hd, ht⟩ := Declarations.mem_typesOf ht
  exact wellNamed_of_parse hparse hd ht

end Schema

end SchemaFragments
