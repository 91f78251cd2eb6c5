import SchemaFragments.Proofs.Merging
/-!
# Clashes

Declaring the definitions of a document stops at the first one that clashes with those before it: a second
schema definition, or a type with a name that is taken.
-/

namespace SchemaFragments

open Document

variable {document before after : List Definition} {definition : Definition} {error : LinkError} {declared : Declarations}

/-- How a definition clashes with those before it. Scalars may be declared again under a built-in name. -/
inductive Clashes (before : List Definition) : Definition → LinkError → Prop
  | schema {schema other : SchemaDefinition} (h : .schema other ∈ before) :
    Clashes before (.schema schema) (.duplicateSchemaDefinition schema.position)
  | type {type : TypeDefinition} (hnew : redeclaresBuiltIn type = false)
      (h : type.name ∈ builtInScalars ∨ type.name ∈ Import.typeNames before) :
    Clashes before (.type type) (.duplicateType type.name type.position)

/-- No definition clashes with those before it. -/
def Unclashed (document : List Definition) : Prop :=
  ∀ before definition after error, document = before ++ definition :: after → ¬ Clashes before definition error

/-- The clash of the first definition that clashes. -/
def FirstClash (document : List Definition) (error : LinkError) : Prop :=
  ∃ before definition after, document = before ++ definition :: after ∧ Unclashed before ∧
    Clashes before definition error

theorem unclashed_nil : Unclashed [] := fun before definition after error h => by simp at h

theorem Unclashed.of_append (h : Unclashed (before ++ after)) : Unclashed before :=
  fun pre d post error he => h pre d (post ++ after) error (by simp [he])

theorem unclashed_concat : Unclashed (document ++ [definition]) ↔
    Unclashed document ∧ ∀ error, ¬ Clashes document definition error := by
  refine ⟨fun h => ⟨h.of_append, fun error => h document definition [] error rfl⟩, ?_⟩
  rintro ⟨hdocument, hlast⟩ before d after error he
  rcases List.eq_nil_or_concat after with rfl | ⟨after, last, rfl⟩
  · obtain ⟨rfl, hd⟩ := List.append_inj' he rfl
    cases hd
    exact hlast error
  · rw [List.concat_eq_append, ← List.cons_append, ← List.append_assoc] at he
    exact hdocument before d after error (List.append_inj' he rfl).1

theorem not_firstClash_nil : ¬ FirstClash [] error := by
  rintro ⟨before, definition, after, h, -⟩
  simp at h

theorem firstClash_concat : FirstClash (document ++ [definition]) error ↔
    FirstClash document error ∨ Unclashed document ∧ Clashes document definition error := by
  constructor
  · rintro ⟨before, d, after, he, hbefore, hclash⟩
    rcases List.eq_nil_or_concat after with rfl | ⟨after, last, rfl⟩
    · obtain ⟨rfl, hd⟩ := List.append_inj' he rfl
      cases hd
      exact .inr ⟨hbefore, hclash⟩
    · rw [List.concat_eq_append, ← List.cons_append, ← List.append_assoc] at he
      exact .inl ⟨before, d, after, (List.append_inj' he rfl).1, hbefore, hclash⟩
  · rintro (⟨before, d, after, rfl, hbefore, hclash⟩ | ⟨hdocument, hclash⟩)
    · exact ⟨before, d, after ++ [definition], by simp, hbefore, hclash⟩
    · exact ⟨document, definition, [], rfl, hdocument, hclash⟩

/-! ## Declaring -/

namespace Declarations

theorem ofDocument_concat (document : List Definition) (definition : Definition) :
    ofDocument (document ++ [definition]) = ofDocument document >>= fun declared => declared.add definition := by
  rw [ofDocument, ofDocument, List.foldlM_append]
  refine congrArg _ (funext fun declared => ?_)
  rw [List.foldlM_cons]
  cases declared.add definition <;> rfl

theorem isSome_schema_iff (h : ofDocument document = .ok declared) :
    declared.schema.isSome = true ↔ ∃ schema, .schema schema ∈ document := by
  rw [ofDocument_schema h, List.findSome?_isSome_iff]
  constructor
  · rintro ⟨definition, hd, hs⟩
    cases definition with
    | schema schema => exact ⟨schema, hd⟩
    | type | extension | directive => cases hs
  · rintro ⟨schema, hd⟩
    exact ⟨_, hd, rfl⟩

/-- A name is taken if it is built in or that of a type before. -/
theorem isSome_lookup_kinds_iff (h : ofDocument document = .ok declared) {name : String} :
    (declared.kinds.lookup name).isSome = true ↔ name ∈ builtInScalars ∨ name ∈ Import.typeNames document := by
  rw [lookup_kinds h, categoryOf]
  split
  · rename_i hb
    simp [hb]
  · rename_i hb
    simp only [Option.isSome_map, List.find?_isSome, hb, false_or, Import.typeNames, List.mem_filterMap,
      Option.map_eq_some_iff, beq_iff_eq]
    constructor
    · rintro ⟨type, ⟨d, hd, ht⟩, hn⟩
      exact ⟨d, hd, type, ht, hn⟩
    · rintro ⟨d, hd, type, ht, hn⟩
      exact ⟨type, ⟨d, hd, ht⟩, hn⟩

theorem add_eq_error_iff (h : ofDocument document = .ok declared) :
    declared.add definition = .error error ↔ Clashes document definition error := by
  cases definition with
  | schema schema =>
    rw [add]
    constructor
    · intro he
      split at he <;> cases he
      rename_i htaken
      obtain ⟨other, hother⟩ := (isSome_schema_iff h).1 htaken
      exact .schema hother
    · rintro ⟨hother⟩
      rw [if_pos ((isSome_schema_iff h).2 ⟨_, hother⟩)]
  | type type =>
    rw [add]
    constructor
    · intro he
      split at he
      · cases he
      · rename_i hnew
        split at he <;> cases he
        rename_i htaken
        exact .type (eq_false_of_ne_true hnew) ((isSome_lookup_kinds_iff h).1 htaken)
    · rintro (_ | ⟨hnew, htaken⟩)
      rw [if_neg (ne_true_of_eq_false hnew), if_pos ((isSome_lookup_kinds_iff h).2 htaken)]
  | extension | directive =>
    constructor
    · intro he
      cases he
    · intro hc
      cases hc

/-- Declaring succeeds exactly where nothing clashes, and fails with the first clash. -/
theorem ofDocument_iff (document : List Definition) :
    ((∃ declared, ofDocument document = .ok declared) ↔ Unclashed document) ∧
      ∀ error, ofDocument document = .error error ↔ FirstClash document error := by
  induction document using List.reverseRecOn with
  | nil =>
    have hempty : ofDocument [] = .ok empty := rfl
    simp [hempty, unclashed_nil, not_firstClash_nil]
  | append_singleton document definition ih =>
    obtain ⟨hok, herror⟩ := ih
    rw [ofDocument_concat, unclashed_concat]
    simp only [firstClash_concat, ← hok, ← herror]
    cases hd : ofDocument document with
    | error error => simp [bind, Except.bind]
    | ok declared =>
      simp only [← add_eq_error_iff hd, bind, Except.bind]
      cases declared.add definition <;> simp

theorem exists_ok_iff : (∃ declared, ofDocument document = .ok declared) ↔ Unclashed document :=
  (ofDocument_iff document).1

theorem eq_error_iff : ofDocument document = .error error ↔ FirstClash document error :=
  (ofDocument_iff document).2 error

end Declarations

theorem FirstClash.append (h : FirstClash before error) : FirstClash (before ++ after) error := by
  obtain ⟨pre, definition, post, rfl, hpre, hclash⟩ := h
  exact ⟨pre, definition, post ++ after, by simp, hpre, hclash⟩

theorem Clashes.isDuplicate (h : Clashes before definition error) :
    (∃ position, error = .duplicateSchemaDefinition position) ∨
      ∃ name position, error = .duplicateType name position := by
  cases h with
  | schema => exact .inl ⟨_, rfl⟩
  | type => exact .inr ⟨_, _, rfl⟩

/-! ## Merging -/

namespace Import

/-- Object types with one name clash. -/
theorem objectsDiffer_of_unclashed {definitions : List Origin} (h : Unclashed (definitions.map (·.2))) :
    ObjectsDiffer definitions := by
  induction definitions using List.reverseRecOn with
  | nil => exact List.Pairwise.nil
  | append_singleton definitions next ih =>
    rw [List.map_append, List.map_singleton, unclashed_concat] at h
    refine List.pairwise_append.2 ⟨ih h.1, List.pairwise_singleton _ _, ?_⟩
    rintro old hold _ hmem name hnamed hnext
    obtain rfl := List.mem_singleton.1 hmem
    obtain ⟨type, htype, rfl, hkind⟩ := isObjectNamed_iff.1 hnext
    obtain ⟨other, hother, hsame, -⟩ := isObjectNamed_iff.1 hnamed
    have htaken : type.name ∈ typeNames (definitions.map (·.2)) :=
      mem_typeNames.2 ⟨other, hother ▸ List.mem_map_of_mem hold, hsame⟩
    rw [htype] at h
    exact h.2 _ (.type (by simp [redeclaresBuiltIn, hkind]) (.inr htaken))

theorem schema_mem_map_heading {schema : SchemaDefinition} :
    .schema schema ∈ document.map heading ↔ .schema schema ∈ document := by
  rw [← mem_schemas, ← mem_schemas, List.filterMap_map]
  simp only [Function.comp_def, schema?_heading]

theorem typeNames_map_heading (document : List Definition) : typeNames (document.map heading) = typeNames document := by
  simp only [typeNames, List.filterMap_map, Function.comp_def, name_heading]

/-- Fields and interfaces take no part in clashes. -/
theorem clashes_map_heading : Clashes (document.map heading) (heading definition) error ↔
    Clashes document definition error := by
  have htaken (name : String) : (name ∈ builtInScalars ∨ name ∈ typeNames (document.map heading)) ↔
      (name ∈ builtInScalars ∨ name ∈ typeNames document) := by
    rw [typeNames_map_heading]
  cases definition with
  | schema schema =>
    constructor
    · rintro ⟨hother⟩
      exact .schema (schema_mem_map_heading.1 hother)
    · rintro ⟨hother⟩
      exact .schema (schema_mem_map_heading.2 hother)
  | type type =>
    obtain ⟨position, description, name, directives, body⟩ := type
    cases body <;> constructor <;> rintro (_ | ⟨hnew, h⟩)
    all_goals first
      | exact .type hnew ((htaken name).1 h)
      | exact .type hnew ((htaken name).2 h)
  | extension | directive =>
    constructor <;> intro h <;> cases h

theorem unclashed_map_heading : Unclashed (document.map heading) ↔ Unclashed document := by
  induction document using List.reverseRecOn with
  | nil => rfl
  | append_singleton document definition ih =>
    simp only [List.map_append, List.map_singleton, unclashed_concat, ih, clashes_map_heading]

theorem firstClash_map_heading : FirstClash (document.map heading) error ↔ FirstClash document error := by
  induction document using List.reverseRecOn with
  | nil => rfl
  | append_singleton document definition ih =>
    simp only [List.map_append, List.map_singleton, firstClash_concat, ih, unclashed_map_heading, clashes_map_heading]

/-- A clash of schema definitions is still the first one when roots are merged. -/
theorem firstClash_mergeRoots {definitions : List Origin} {position : Position}
    (h : FirstClash (definitions.map (·.2)) (.duplicateSchemaDefinition position)) :
    FirstClash ((mergeRoots definitions).map (·.2)) (.duplicateSchemaDefinition position) := by
  obtain ⟨before, definition, after, he, hbefore, hclash⟩ := h
  obtain ⟨first, rest, rfl, rfl, hrest⟩ := List.map_eq_append_iff.1 he
  obtain ⟨next, last, rfl, rfl, rfl⟩ := List.map_eq_cons_iff.1 hrest
  have hnext (name : String) : isObjectNamed name next.2 ≠ true := by
    intro hn
    obtain ⟨type, htype, -⟩ := isObjectNamed_iff.1 hn
    rw [htype] at hclash
    cases hclash
  obtain ⟨others, hothers⟩ : headings (first ++ [next]) <+: headings (mergeRoots (first ++ next :: last)) :=
    prefix_headings_mergeRoots (objectsDiffer_of_unclashed hbefore) hnext
  have hheadings (origins : List Origin) : headings origins = (origins.map (·.2)).map heading := by
    rw [List.map_map]
    rfl
  rw [← firstClash_map_heading, ← hheadings, ← hothers, hheadings]
  refine FirstClash.append (firstClash_map_heading.2 ?_)
  exact ⟨first.map (·.2), next.2, [], by simp, hbefore, hclash⟩

end Import

end SchemaFragments
