import SchemaFragments.Proofs.Combining
import SchemaFragments.Proofs.SchemaTypes
/-!
# Merged roots

Merging adds to the fields and interfaces of object types and to nothing else: the schema definitions and the
names of the types stay, and where no two object types have one name every definition does.
-/

namespace SchemaFragments.Import

open Document

variable {roots : List String} {emitted definitions before after : List Origin} {next : Origin} {name : String}

/-- A definition without what merging adds to. -/
def heading : Definition → Definition
  | .type ⟨position, description, name, directives, .object _ _⟩ =>
    .type ⟨position, description, name, directives, .object [] []⟩
  | definition => definition

def headings (origins : List Origin) : List Definition := origins.map (heading ·.2)

@[simp] theorem headings_append : headings (before ++ after) = headings before ++ headings after := List.map_append

theorem schema?_heading (definition : Definition) : (heading definition).schema? = definition.schema? := by
  unfold heading
  split <;> rfl

theorem name_heading (definition : Definition) :
    (heading definition).type?.map (·.name) = definition.type?.map (·.name) := by
  unfold heading
  split <;> rfl

theorem heading_mergeObject (interfaces : List String) (fields : List Field) (definition : Definition) :
    heading (mergeObject interfaces fields definition) = heading definition := by
  cases definition with
  | type type =>
    obtain ⟨position, description, name, directives, body⟩ := type
    cases body <;> rfl
  | schema | extension | directive => rfl

theorem isObjectNamed_iff {definition : Definition} : isObjectNamed name definition = true ↔
    ∃ type, definition = .type type ∧ type.name = name ∧ type.kind = .object := by
  cases definition with
  | type type =>
    obtain ⟨position, description, name', directives, body⟩ := type
    cases body <;> simp [isObjectNamed, objectParts?, Definition.type?, TypeDefinition.kind, TypeBody.kind]
  | schema | extension | directive => simp [isObjectNamed, objectParts?, Definition.type?]

/-! ## One definition -/

/-- A definition is appended, or an object type with the name of a root goes into an earlier one. -/
theorem emit_cases (roots : List String) (emitted : List Origin) (next : Origin) :
    emit roots emitted next = emitted ++ [next] ∨
      ∃ name interfaces fields index old, isObjectNamed name next.2 = true ∧ emitted[index]? = some old ∧
        isObjectNamed name old.2 = true ∧
        emit roots emitted next = emitted.modify index fun origin => (origin.1, mergeObject interfaces fields origin.2) := by
  unfold emit
  split
  · rename_i name interfaces fields hparts
    split
    · rename_i index hindex
      obtain ⟨hlt, hfound, -⟩ := List.findIdx?_eq_some_iff_getElem.1 hindex
      obtain ⟨-, hnamed⟩ := Bool.and_eq_true_iff.1 hfound
      exact .inr ⟨name, interfaces, fields, index, _, by simp [isObjectNamed, hparts], List.getElem?_eq_getElem hlt,
        hnamed, rfl⟩
    · exact .inl rfl
  · exact .inl rfl

theorem headings_modify (index : Nat) (interfaces : List String) (fields : List Field) :
    headings (emitted.modify index fun origin => (origin.1, mergeObject interfaces fields origin.2)) =
      headings emitted := by
  refine List.ext_getElem? fun place => ?_
  simp only [headings, List.getElem?_map, List.getElem?_modify]
  cases emitted[place]? with
  | none => rfl
  | some origin => by_cases h : index = place <;> simp [h, heading_mergeObject]

/-- Only an object type that has an earlier namesake can go into another definition. -/
theorem headings_emit (roots : List String) (emitted : List Origin) (next : Origin) :
    headings (emit roots emitted next) = headings (emitted ++ [next]) ∨
      headings (emit roots emitted next) = headings emitted ∧
        ∃ name, isObjectNamed name next.2 = true ∧ ∃ old ∈ emitted, isObjectNamed name old.2 = true := by
  rcases emit_cases roots emitted next with h | ⟨name, interfaces, fields, index, old, hnext, hold, hnamed, h⟩
  · exact .inl (congrArg headings h)
  · rw [h, headings_modify]
    exact .inr ⟨rfl, name, hnext, old, List.mem_of_getElem? hold, hnamed⟩

/-! ## All of them -/

theorem prefix_headings_foldl (roots : List String) (emitted definitions : List Origin) :
    headings emitted <+: headings (definitions.foldl (emit roots) emitted) := by
  induction definitions generalizing emitted with
  | nil => exact List.prefix_rfl
  | cons next definitions ih =>
    refine List.IsPrefix.trans ?_ (ih (emit roots emitted next))
    rcases headings_emit roots emitted next with h | ⟨h, -⟩
    · rw [h, headings_append]
      exact List.prefix_append _ _
    · rw [h]

theorem emit_nil (roots : List String) (next : Origin) : emit roots [] next = [next] := by
  unfold emit
  split <;> rfl

theorem mergeRoots_eq_nil_iff : mergeRoots definitions = [] ↔ definitions = [] := by
  constructor
  · intro h
    cases definitions with
    | nil => rfl
    | cons next definitions =>
      -- the first definition stays, whatever goes into it
      have hprefix := prefix_headings_foldl (rootNames ((next :: definitions).map (·.2))) [next] definitions
      rw [mergeRoots, List.foldl_cons, emit_nil] at h
      rw [h] at hprefix
      cases List.prefix_nil.1 hprefix
  · rintro rfl
    rfl

/-- No two object types have the same name. -/
def ObjectsDiffer (definitions : List Origin) : Prop :=
  definitions.Pairwise fun a b => ∀ name, isObjectNamed name a.2 = true → isObjectNamed name b.2 ≠ true

theorem foldl_emit_eq_append (h : ObjectsDiffer (emitted ++ definitions)) :
    definitions.foldl (emit roots) emitted = emitted ++ definitions := by
  induction definitions generalizing emitted with
  | nil => exact (List.append_nil _).symm
  | cons next definitions ih =>
    rw [List.append_cons] at h ⊢
    rw [List.foldl_cons]
    rcases emit_cases roots emitted next with he | ⟨name, _, _, index, old, hnext, hold, hnamed, -⟩
    · rw [he]
      exact ih h
    · -- the namesake stands before this definition
      have hlater := (List.pairwise_append.1 h).1
      exact absurd hnext ((List.pairwise_append.1 hlater).2.2 old (List.mem_of_getElem? hold) next (by simp) name hnamed)

theorem mergeRoots_eq_self (h : ObjectsDiffer definitions) : mergeRoots definitions = definitions :=
  foldl_emit_eq_append h

/-- Up to a definition that is no object type, definitions without namesakes keep their headings. -/
theorem prefix_headings_mergeRoots (h : ObjectsDiffer before) (hnext : ∀ name, isObjectNamed name next.2 ≠ true) :
    headings (before ++ [next]) <+: headings (mergeRoots (before ++ next :: after)) := by
  have hbefore (roots : List String) : before.foldl (emit roots) [] = before := foldl_emit_eq_append h
  rw [mergeRoots, List.foldl_append, List.foldl_cons, hbefore]
  refine List.IsPrefix.trans ?_ (prefix_headings_foldl _ _ _)
  rcases headings_emit (rootNames ((before ++ next :: after).map (·.2))) before next with he | ⟨-, name, hn, -⟩
  · rw [he]
  · exact absurd hn (hnext name)

/-! ## What stays -/

def typeNames (document : List Definition) : List String := document.filterMap fun d => d.type?.map (·.name)

theorem mem_typeNames {document : List Definition} :
    name ∈ typeNames document ↔ ∃ type, .type type ∈ document ∧ type.name = name := by
  simp only [typeNames, List.mem_filterMap, Option.map_eq_some_iff]
  constructor
  · rintro ⟨definition, hd, type, ht, hn⟩
    cases definition <;> cases ht
    exact ⟨_, hd, hn⟩
  · rintro ⟨type, hd, hn⟩
    exact ⟨_, hd, type, rfl, hn⟩

theorem typeNames_headings (origins : List Origin) : typeNames (headings origins) = typeNames (origins.map (·.2)) := by
  simp only [typeNames, headings, List.filterMap_map, Function.comp_def, name_heading]

theorem mem_typeNames_emit : name ∈ typeNames ((emit roots emitted next).map (·.2)) ↔
    name ∈ typeNames ((emitted ++ [next]).map (·.2)) := by
  rw [← typeNames_headings, ← typeNames_headings]
  rcases headings_emit roots emitted next with h | ⟨h, object, hnext, old, hold, hnamed⟩
  · rw [h]
  · obtain ⟨type, htype, rfl, -⟩ := isObjectNamed_iff.1 hnext
    obtain ⟨earlier, hearlier, hsame, -⟩ := isObjectNamed_iff.1 hnamed
    rw [h, typeNames_headings, typeNames_headings, mem_typeNames, mem_typeNames]
    constructor
    · rintro ⟨type, ht, rfl⟩
      exact ⟨type, by simp_all, rfl⟩
    · rintro ⟨other, ho, rfl⟩
      rw [List.map_append, List.mem_append, List.map_singleton, List.mem_singleton, htype] at ho
      rcases ho with ho | ho
      · exact ⟨other, ho, rfl⟩
      · cases ho
        exact ⟨earlier, hearlier ▸ List.mem_map_of_mem hold, hsame⟩

theorem mem_typeNames_foldl : name ∈ typeNames ((definitions.foldl (emit roots) emitted).map (·.2)) ↔
    name ∈ typeNames ((emitted ++ definitions).map (·.2)) := by
  induction definitions generalizing emitted with
  | nil => rw [List.append_nil, List.foldl_nil]
  | cons next definitions ih =>
    have happend (first : List Origin) : name ∈ typeNames ((first ++ definitions).map (·.2)) ↔
        name ∈ typeNames (first.map (·.2)) ∨ name ∈ typeNames (definitions.map (·.2)) := by
      simp [typeNames]
    rw [List.foldl_cons, ih, List.append_cons, happend, happend, mem_typeNames_emit]

/-- Merging neither adds nor loses the name of a type. -/
theorem mem_typeNames_mergeRoots : name ∈ typeNames ((mergeRoots definitions).map (·.2)) ↔
    name ∈ typeNames (definitions.map (·.2)) :=
  mem_typeNames_foldl

theorem schemas_emit : (headings (emit roots emitted next)).filterMap Definition.schema? =
    (headings (emitted ++ [next])).filterMap Definition.schema? := by
  rcases headings_emit roots emitted next with h | ⟨h, name, hnext, -⟩
  · rw [h]
  · obtain ⟨type, htype, -⟩ := isObjectNamed_iff.1 hnext
    have hschema : Definition.schema? (heading next.2) = none := by rw [schema?_heading, htype]; rfl
    rw [h, headings_append, List.filterMap_append, headings, headings, List.map_singleton,
      List.filterMap_cons_none hschema, List.filterMap_nil, List.append_nil]

theorem schemas_foldl : (headings (definitions.foldl (emit roots) emitted)).filterMap Definition.schema? =
    (headings (emitted ++ definitions)).filterMap Definition.schema? := by
  induction definitions generalizing emitted with
  | nil => rw [List.append_nil, List.foldl_nil]
  | cons next definitions ih =>
    rw [List.foldl_cons, ih, List.append_cons, headings_append, headings_append, List.filterMap_append,
      List.filterMap_append, schemas_emit]

theorem mem_schemas {document : List Definition} {schema : SchemaDefinition} :
    schema ∈ document.filterMap Definition.schema? ↔ .schema schema ∈ document := by
  rw [List.mem_filterMap]
  constructor
  · rintro ⟨definition, hd, hs⟩
    cases definition <;> cases hs
    exact hd
  · exact fun hd => ⟨_, hd, rfl⟩

/-- Merging keeps the schema definitions. -/
theorem schema_mem_mergeRoots {schema : SchemaDefinition} :
    .schema schema ∈ (mergeRoots definitions).map (·.2) ↔ .schema schema ∈ definitions.map (·.2) := by
  have hschemas (origins : List Origin) : (headings origins).filterMap Definition.schema? =
      (origins.map (·.2)).filterMap Definition.schema? := by
    simp only [headings, List.filterMap_map, Function.comp_def, schema?_heading]
  rw [← mem_schemas, ← mem_schemas, ← hschemas, ← hschemas, mergeRoots, schemas_foldl, List.nil_append]

end SchemaFragments.Import
