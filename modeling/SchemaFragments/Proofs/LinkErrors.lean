import SchemaFragments.Proofs.RootTypes
/-!
# Which documents link

A document links exactly if its names are distinct and its roots are object types. Otherwise the first clash is
reported, and only without one the first wrong root: `parse_linked_iff`.
-/

namespace SchemaFragments

open Document

variable {document : List Definition} {definition : Definition} {declared : Declarations} {schema : SchemaDefinition}
  {operation : Operation} {name : String} {error : LinkError}

/-! ## Conditions on a document -/

/-- Some definition of a document makes a name that of an object type. -/
def DeclaresObject (document : List Definition) (name : String) : Prop :=
  ∃ type, .type type ∈ document ∧ type.name = name ∧ type.kind = .object

/-- At most one schema definition, type names that are told apart, and built-in names for scalars only. -/
structure DistinctNames (document : List Definition) : Prop where
  schemas : (document.filterMap Definition.schema?).length ≤ 1
  types : ((Import.typeNames document).filter (· ∉ builtInScalars)).Nodup
  builtIns : ∀ type, .type type ∈ document → type.name ∈ builtInScalars → type.kind = .scalar

/-- The roots that schema definitions name are object types. -/
def RootsDeclared (document : List Definition) : Prop :=
  ∀ schema, .schema schema ∈ document → ∀ operation name, schema.root operation = some name →
    DeclaresObject document name

/-- How the root that a schema definition names for an operation is wrong. -/
inductive BadRoot (document : List Definition) (schema : SchemaDefinition) (operation : Operation) :
    LinkError → Prop
  | notObject {name : String} (hroot : schema.root operation = some name)
      (h : name ∈ builtInScalars ∨ name ∈ Import.typeNames document) (hobject : ¬ DeclaresObject document name) :
    BadRoot document schema operation (.rootNotObject operation name schema.position)
  | unknown {name : String} (hroot : schema.root operation = some name) (hbuiltIn : name ∉ builtInScalars)
      (h : name ∉ Import.typeNames document) :
    BadRoot document schema operation (.unknownRoot operation name schema.position)

/-- The first wrong root in the order of the operations. -/
def FirstBadRoot (document : List Definition) (error : LinkError) : Prop :=
  ∃ schema before operation after, .schema schema ∈ document ∧ Operation.all = before ++ operation :: after ∧
    (∀ earlier ∈ before, ∀ other, ¬ BadRoot document schema earlier other) ∧ BadRoot document schema operation error

/-! ## Clashes -/

theorem clashes_schema_iff : (∃ error, Clashes document (.schema schema) error) ↔
    document.filterMap Definition.schema? ≠ [] := by
  constructor
  · rintro ⟨_, ⟨h⟩⟩
    exact List.ne_nil_of_mem (Import.mem_schemas.2 h)
  · intro h
    obtain ⟨other, hother⟩ := List.exists_mem_of_ne_nil _ h
    exact ⟨_, .schema (Import.mem_schemas.1 hother)⟩

theorem clashes_type_iff {type : TypeDefinition} : (∃ error, Clashes document (.type type) error) ↔
    type.name ∈ builtInScalars ∧ type.kind ≠ .scalar ∨
      type.name ∉ builtInScalars ∧ type.name ∈ Import.typeNames document := by
  have hnew : redeclaresBuiltIn type = false ↔ (type.name ∈ builtInScalars → type.kind ≠ .scalar) := by
    simp only [redeclaresBuiltIn, Bool.and_eq_false_iff, beq_eq_false_iff_ne, List.contains_eq_mem,
      decide_eq_false_iff_not]
    tauto
  constructor
  · rintro ⟨_, _ | ⟨hn, h⟩⟩
    rw [hnew] at hn
    tauto
  · rintro (⟨hb, hk⟩ | ⟨hb, ht⟩)
    · exact ⟨_, .type (hnew.2 fun _ => hk) (.inl hb)⟩
    · exact ⟨_, .type (hnew.2 fun h => absurd h hb) (.inr ht)⟩

theorem distinctNames_iff : DistinctNames document ↔ (document.filterMap Definition.schema?).length ≤ 1 ∧
    ((Import.typeNames document).filter (· ∉ builtInScalars)).Nodup ∧
    ∀ type, .type type ∈ document → type.name ∈ builtInScalars → type.kind = .scalar :=
  ⟨fun ⟨hschemas, htypes, hbuiltIns⟩ => ⟨hschemas, htypes, hbuiltIns⟩,
    fun ⟨hschemas, htypes, hbuiltIns⟩ => ⟨hschemas, htypes, hbuiltIns⟩⟩

theorem distinctNames_append {before after : List Definition} : DistinctNames (before ++ after) ↔
    (before.filterMap Definition.schema?).length + (after.filterMap Definition.schema?).length ≤ 1 ∧
      ((Import.typeNames before).filter (· ∉ builtInScalars) ++
        (Import.typeNames after).filter (· ∉ builtInScalars)).Nodup ∧
      (∀ type, .type type ∈ before → type.name ∈ builtInScalars → type.kind = .scalar) ∧
      ∀ type, .type type ∈ after → type.name ∈ builtInScalars → type.kind = .scalar := by
  have htypes : Import.typeNames (before ++ after) = Import.typeNames before ++ Import.typeNames after :=
    List.filterMap_append
  rw [distinctNames_iff, htypes, List.filter_append, List.filterMap_append, List.length_append]
  simp only [List.mem_append, or_imp, forall_and]

/-- A definition keeps names distinct if it does not clash with those before it. -/
theorem distinctNames_concat : DistinctNames (document ++ [definition]) ↔
    DistinctNames document ∧ ¬ ∃ error, Clashes document definition error := by
  rw [distinctNames_append, distinctNames_iff]
  cases definition with
  | schema schema =>
    have hschemas : [Definition.schema schema].filterMap Definition.schema? = [schema] := rfl
    have htypes : Import.typeNames [.schema schema] = [] := rfl
    rw [clashes_schema_iff, not_not, ← List.length_eq_zero_iff, hschemas, htypes]
    simp only [List.length_singleton, List.filter_nil, List.append_nil, List.mem_singleton, reduceCtorEq,
      IsEmpty.forall_iff, implies_true, and_true]
    have hcount (count : Nat) : count + 1 ≤ 1 ↔ count ≤ 1 ∧ count = 0 := by omega
    rw [hcount]
    tauto
  | type type =>
    have hschemas : [Definition.type type].filterMap Definition.schema? = [] := rfl
    have htypes : Import.typeNames [.type type] = [type.name] := rfl
    rw [clashes_type_iff, hschemas, htypes]
    by_cases hb : type.name ∈ builtInScalars
    · simp [hb, and_assoc]
    · have hnodup : ((Import.typeNames document).filter (· ∉ builtInScalars) ++ [type.name]).Nodup ↔
          ((Import.typeNames document).filter (· ∉ builtInScalars)).Nodup ∧ type.name ∉ Import.typeNames document := by
        rw [List.nodup_append_comm, List.singleton_append, List.nodup_cons, and_comm]
        simp [hb]
      have hkept : [type.name].filter (· ∉ builtInScalars) = [type.name] := by simp [hb]
      rw [hkept, hnodup]
      simp only [List.mem_singleton, Definition.type.injEq, forall_eq, hb, List.length_nil, Nat.add_zero]
      tauto
  | extension addition | directive addition =>
    constructor
    · rintro ⟨hschemas, htypes, hbuiltIns, -⟩
      refine ⟨⟨hschemas, ?_, hbuiltIns⟩, by rintro ⟨_, ⟨⟩⟩⟩
      simpa [Import.typeNames, Definition.type?] using htypes
    · rintro ⟨⟨hschemas, htypes, hbuiltIns⟩, -⟩
      refine ⟨hschemas, ?_, hbuiltIns, by simp⟩
      simpa [Import.typeNames, Definition.type?] using htypes

/-- Nothing clashes exactly where names are distinct. -/
theorem unclashed_iff : Unclashed document ↔ DistinctNames document := by
  induction document using List.reverseRecOn with
  | nil => exact iff_of_true unclashed_nil (distinctNames_iff.2 (by simp [Import.typeNames]))
  | append_singleton document definition ih => rw [unclashed_concat, distinctNames_concat, ih, not_exists]

/-! ## Roots -/

/-- An object type that is declared is found under its name. -/
theorem lookup_eq_object_iff (h : Declarations.ofDocument document = .ok declared) :
    declared.kinds.lookup name = some .object ↔ DeclaresObject document name := by
  constructor
  · intro hl
    obtain ⟨type, htype, hname, hkind⟩ := Declarations.exists_of_lookup hl (by decide)
    rw [(Declarations.ofDocument_ok h).1] at htype
    obtain ⟨definition, hmem, ht⟩ := Declarations.mem_typesOf htype
    cases definition <;> cases ht
    exact ⟨type, hmem, hname, hkind⟩
  · rintro ⟨type, hmem, rfl, hkind⟩
    have htype : type ∈ declared.types := by
      rw [(Declarations.ofDocument_ok h).1, Declarations.typesOf, List.mem_filter]
      exact ⟨List.mem_filterMap.2 ⟨_, hmem, rfl⟩, by simp [redeclaresBuiltIn, hkind]⟩
    rw [Declarations.lookup_kinds h, Declarations.categoryOf_declared h htype, hkind]

theorem checkedRoot_eq_error_iff (h : Declarations.ofDocument document = .ok declared) :
    checkedRoot declared.kinds schema operation = .error error ↔ BadRoot document schema operation error := by
  have htaken (name : String) : (declared.kinds.lookup name).isSome = true ↔
      name ∈ builtInScalars ∨ name ∈ Import.typeNames document :=
    Declarations.isSome_lookup_kinds_iff h
  constructor
  · intro he
    unfold checkedRoot at he
    split at he
    · cases he
    · rename_i name hroot
      split at he <;> cases he
      · rename_i kind hobject hl
        refine .notObject hroot ((htaken name).1 (by simp [hl])) fun hd => ?_
        rw [← lookup_eq_object_iff h, hl] at hd
        exact hobject (Option.some.inj hd)
      · rename_i hl
        obtain ⟨hb, ht⟩ := not_or.1 (mt (htaken name).2 (by simp [hl]))
        exact .unknown hroot hb ht
  · rintro (⟨hroot, ht, hobject⟩ | ⟨hroot, hb, ht⟩)
    · obtain ⟨kind, hl⟩ := Option.isSome_iff_exists.1 ((htaken _).2 ht)
      rw [← lookup_eq_object_iff h, hl] at hobject
      rw [checkedRoot, hroot]
      dsimp only
      rw [hl]
      cases kind with
      | object => exact absurd rfl hobject
      | scalar | enum | interface | union | inputObject => rfl
    · have hl := Option.not_isSome_iff_eq_none.1 (mt (htaken _).1 (not_or.2 ⟨hb, ht⟩))
      rw [checkedRoot, hroot]
      dsimp only
      rw [hl]

theorem bind_eq_error_iff {ε α β : Type} {first : Except ε α} {next : α → Except ε β} {failure : ε} :
    first >>= next = .error failure ↔
      first = .error failure ∨ ∃ value, first = .ok value ∧ next value = .error failure := by
  cases first with
  | error other =>
    constructor
    · intro h
      cases h
      exact .inl rfl
    · rintro (h | ⟨_, h, -⟩) <;> cases h
      rfl
  | ok value => simp [bind, Except.bind]

theorem exists_ok_iff_not_error {ε α : Type} {result : Except ε α} :
    (∃ value, result = .ok value) ↔ ∀ failure, result ≠ .error failure := by
  cases result <;> simp

/-- The first operation of one property, where those before it have another one. -/
theorem first_operation_iff {p q : Operation → Prop} :
    (∃ before operation after, Operation.all = before ++ operation :: after ∧ (∀ earlier ∈ before, p earlier) ∧
      q operation) ↔ q .query ∨ p .query ∧ (q .mutation ∨ p .mutation ∧ q .subscription) := by
  constructor
  · rintro ⟨before, operation, after, hall, hbefore, hhere⟩
    rcases before with _ | ⟨first, _ | ⟨second, _ | ⟨third, before⟩⟩⟩
    · cases hall
      exact .inl hhere
    · cases hall
      exact .inr ⟨hbefore _ (by simp), .inl hhere⟩
    · cases hall
      exact .inr ⟨hbefore _ (by simp), .inr ⟨hbefore _ (by simp), hhere⟩⟩
    · simp [Operation.all] at hall
  · rintro (h | ⟨hq, h | ⟨hm, h⟩⟩)
    · exact ⟨[], .query, _, rfl, by simp, h⟩
    · exact ⟨[.query], .mutation, _, rfl, by simpa, h⟩
    · exact ⟨[.query, .mutation], .subscription, _, rfl, by simp [hq, hm], h⟩

theorem rootsOf_eq_error_iff (h : Declarations.ofDocument document = .ok declared) :
    rootsOf declared.kinds (some schema) = .error error ↔ ∃ before operation after,
      Operation.all = before ++ operation :: after ∧
        (∀ earlier ∈ before, ∀ other, ¬ BadRoot document schema earlier other) ∧
        BadRoot document schema operation error := by
  have hok (operation : Operation) : (∃ root, checkedRoot declared.kinds schema operation = .ok root) ↔
      ∀ other, ¬ BadRoot document schema operation other := by
    rw [exists_ok_iff_not_error]
    exact forall_congr' fun other => not_congr (checkedRoot_eq_error_iff h)
  rw [first_operation_iff (p := fun operation => ∀ other, ¬ BadRoot document schema operation other)]
  simp only [rootsOf, bind_eq_error_iff, checkedRoot_eq_error_iff h, ← hok, exists_and_right, pure, Except.pure,
    reduceCtorEq, and_false, exists_false, or_false]

theorem schema_eq_some_iff (h : Declarations.ofDocument document = .ok declared) :
    declared.schema = some schema ↔ .schema schema ∈ document := by
  rw [Declarations.ofDocument_schema h]
  constructor
  · intro hs
    obtain ⟨definition, hmem, hd⟩ := List.exists_of_findSome?_eq_some hs
    cases definition <;> cases hd
    exact hmem
  · exact Schema.findSome?_of_unclashed (Declarations.exists_ok_iff.1 ⟨declared, h⟩)

theorem ofDeclarations_eq_error_iff (h : Declarations.ofDocument document = .ok declared) :
    Schema.ofDeclarations declared = .error error ↔ FirstBadRoot document error := by
  have hroots : Schema.ofDeclarations declared = .error error ↔
      rootsOf declared.kinds declared.schema = .error error := by
    simp [Schema.ofDeclarations, bind_eq_error_iff, pure, Except.pure]
  rw [hroots]
  cases hs : declared.schema with
  | none =>
    refine iff_of_false (by simp [rootsOf]) ?_
    rintro ⟨schema, _, _, _, hmem, -⟩
    rw [← schema_eq_some_iff h, hs] at hmem
    cases hmem
  | some schema =>
    rw [rootsOf_eq_error_iff h]
    constructor
    · rintro ⟨before, operation, after, hfirst⟩
      exact ⟨schema, before, operation, after, (schema_eq_some_iff h).1 hs, hfirst⟩
    · rintro ⟨other, before, operation, after, hmem, hfirst⟩
      rw [← schema_eq_some_iff h, hs] at hmem
      cases hmem
      exact ⟨before, operation, after, hfirst⟩

/-- What is reported is the first clash or, where nothing clashes, the first wrong root. -/
theorem ofDocument_eq_error_iff : Schema.ofDocument document = .error error ↔
    FirstClash document error ∨ Unclashed document ∧ FirstBadRoot document error := by
  rw [Schema.ofDocument, bind_eq_error_iff, Declarations.eq_error_iff, ← Declarations.exists_ok_iff,
    ← exists_and_right]
  exact or_congr_right (exists_congr fun declared => and_congr_right fun h => ofDeclarations_eq_error_iff h)

/-- A root is wrong exactly if it is no object type that is declared. -/
theorem not_badRoot_iff : (∀ error, ¬ BadRoot document schema operation error) ↔
    ∀ name, schema.root operation = some name → DeclaresObject document name := by
  constructor
  · intro h name hroot
    by_contra hobject
    by_cases ht : name ∈ builtInScalars ∨ name ∈ Import.typeNames document
    · exact h _ (.notObject hroot ht hobject)
    · exact h _ (.unknown hroot (not_or.1 ht).1 (not_or.1 ht).2)
  · rintro h _ (⟨hroot, -, hobject⟩ | ⟨hroot, -, ht⟩)
    · exact hobject (h _ hroot)
    · obtain ⟨type, hmem, hname, -⟩ := h _ hroot
      exact ht (Import.mem_typeNames.2 ⟨type, hmem, hname⟩)

theorem rootsDeclared_iff : RootsDeclared document ↔ ∀ error, ¬ FirstBadRoot document error := by
  constructor
  · rintro h error ⟨schema, before, operation, after, hmem, -, -, hbad⟩
    exact not_badRoot_iff.2 (h schema hmem operation) error hbad
  · intro h schema hmem operation
    have hfirst (error : LinkError) := mt (first_operation_iff (q := (BadRoot document schema · error))).2
      fun ⟨before, first, after, hfirst⟩ => h error ⟨schema, before, first, after, hmem, hfirst⟩
    simp only [not_or, not_and] at hfirst
    have hquery error := (hfirst error).1
    have hmutation error := ((hfirst error).2 hquery).1
    have hsubscription error := ((hfirst error).2 hquery).2 hmutation
    rw [← not_badRoot_iff]
    cases operation with
    | query => exact hquery
    | mutation => exact hmutation
    | subscription => exact hsubscription

/-! ## Reading and linking -/

namespace Schema

theorem exists_ofDocument_iff : (∃ schema, ofDocument document = .ok schema) ↔
    DistinctNames document ∧ RootsDeclared document := by
  have hunclashed : Unclashed document ↔ ∀ error, ¬ FirstClash document error := by
    rw [← Declarations.exists_ok_iff, exists_ok_iff_not_error]
    exact forall_congr' fun error => not_congr Declarations.eq_error_iff
  rw [exists_ok_iff_not_error, ← unclashed_iff, rootsDeclared_iff]
  simp only [ne_eq, ofDocument_eq_error_iff, not_or, not_and, forall_and, ← hunclashed]
  exact and_congr_right fun h => forall_congr' fun error => forall_prop_of_true h

/-- A text that is read links exactly if its names are distinct and the roots that it names are object types.
Otherwise the first clash in the document is reported, and only without one the first wrong root. Without a schema
definition the roots are those default names that are declared as object types, and none is wrong. -/
theorem parse_linked_iff {text : String} (h : Document.parse text = .ok document) :
    ((∃ schema, parse text = .ok schema) ↔ DistinctNames document ∧ RootsDeclared document) ∧
      (∀ error, parse text = .error error ↔
        FirstClash document error ∨ Unclashed document ∧ FirstBadRoot document error) ∧
      ((∀ definition, .schema definition ∉ document) → DistinctNames document → ∃ schema, parse text = .ok schema ∧
        ∀ operation name, schema.roots.get operation = some name ↔
          name = operation.defaultTypeName ∧ DeclaresObject document name) := by
  rw [parse_of_document h]
  refine ⟨exists_ofDocument_iff, fun error => ofDocument_eq_error_iff, fun hnone hdistinct => ?_⟩
  obtain ⟨schema, hschema⟩ := exists_ofDocument_iff.2
    ⟨hdistinct, fun definition hmem => absurd hmem (hnone definition)⟩
  refine ⟨schema, hschema, fun operation name => ?_⟩
  obtain ⟨declared, hd, hlinked⟩ := exists_ok_of_bind hschema
  obtain ⟨roots, hr, rfl⟩ := ofDeclarations_eq_ok hlinked
  have hnoSchema : document.findSome? Definition.schema? = none := by
    rw [← Declarations.ofDocument_schema hd, Option.eq_none_iff_forall_ne_some]
    exact fun definition hs => hnone definition ((schema_eq_some_iff hd).1 hs)
  dsimp only
  rw [rootsOf_get hd hr, rootOf, hnoSchema]
  dsimp only
  rw [← Declarations.lookup_kinds hd, Option.ite_none_right_eq_some, lookup_eq_object_iff hd]
  constructor
  · rintro ⟨hobject, ⟨⟩⟩
    exact ⟨rfl, hobject⟩
  · rintro ⟨rfl, hobject⟩
    exact ⟨hobject, rfl⟩

/-- A built-in scalar that is declared twice, and a union with the name of a root. -/
def rootedSchema (root : String) : String :=
  "scalar ID schema \x7b query: " ++ root ++ " \x7d type Shelf union Query = Shelf scalar ID"

/-- A clash counts before a wrong root that stands in front of it. -/
def clashingSchema : String := "schema \x7b query: Gone \x7d type Shelf type Shelf"

theorem rootedSchema_linked :
    (∃ document, Document.parse (rootedSchema "Shelf") = .ok document ∧ DistinctNames document ∧
        RootsDeclared document) ∧
      (∃ document, Document.parse (rootedSchema "Query") = .ok document ∧
        FirstBadRoot document (.rootNotObject .query "Query" ⟨1, 11⟩)) ∧
      ∃ document, Document.parse clashingSchema = .ok document ∧
        FirstClash document (.duplicateType "Shelf" ⟨1, 35⟩) := by
  have hread (text : String) (h : (Document.parse text).toOption.any (fun _ => true) = true) :
      ∃ document, Document.parse text = .ok document := (exists_ok_of_any h).imp fun _ h => h.1
  refine ⟨?_, ?_, ?_⟩
  · obtain ⟨document, h⟩ := hread (rootedSchema "Shelf") (by decide +kernel)
    have hok : (parse (rootedSchema "Shelf")).toOption.any (fun _ => true) = true := by decide +kernel
    exact ⟨document, h, (parse_linked_iff h).1.1 ((exists_ok_of_any hok).imp fun _ h => h.1)⟩
  · obtain ⟨document, h⟩ := hread (rootedSchema "Query") (by decide +kernel)
    refine ⟨document, h, (((parse_linked_iff h).2.1 _).1 (by decide +kernel)).elim (fun hclash => ?_) And.right⟩
    obtain ⟨_, _, _, _, _, hclash⟩ := hclash
    cases hclash
  · obtain ⟨document, h⟩ := hread clashingSchema (by decide +kernel)
    refine ⟨document, h, (((parse_linked_iff h).2.1 _).1 (by decide +kernel)).resolve_right ?_⟩
    rintro ⟨-, _, _, _, _, _, _, _, hbad⟩
    cases hbad

end Schema

end SchemaFragments
