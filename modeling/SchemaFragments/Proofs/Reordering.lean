import SchemaFragments.Proofs.FragmentTexts
import SchemaFragments.Proofs.LinkErrors
import SchemaFragments.Proofs.Outlines
/-!
# Definitions in another order

The search from the roots does not look at the order of the definitions, and in a connected schema it finds all
candidates. So what is compiled from a connected schema does not depend on the order of its definitions.
-/

namespace SchemaFragments

open Document

/-- Every object type that is not a root can be reached from the roots. -/
def Connected (roots : List String) (declared : List TypeDefinition) : Prop :=
  ∀ type ∈ declared, type.kind = .object → type.name ∉ roots → Reachable roots declared type.name

instance {roots : List String} {declared : List TypeDefinition} {name : String} :
    Decidable (Reachable roots declared name) := decidable_of_iff _ mem_discover_iff

instance {roots : List String} {declared : List TypeDefinition} : Decidable (Connected roots declared) :=
  inferInstanceAs (Decidable (∀ type ∈ declared, type.kind = .object → type.name ∉ roots →
    Reachable roots declared type.name))

/-! ## Searches that agree -/

theorem find?_perm {α κ : Type} [BEq κ] [LawfulBEq κ] {key : α → κ} {items items' : List α}
    (hn : (items.map key).Nodup) (hp : items.Perm items') (name : κ) :
    items.find? (key · == name) = items'.find? (key · == name) := by
  have hsome {one other : List α} (hn : (one.map key).Nodup) (hsub : ∀ item ∈ other, item ∈ one) (item : α)
      (h : other.find? (key · == name) = some item) : one.find? (key · == name) = some item := by
    have hkey : key item = name := by simpa using List.find?_some h
    rw [← hkey]
    exact find?_eq_some_of_nodup hn (hsub item (List.mem_of_find?_eq_some h))
  refine Option.ext fun item => ⟨?_, ?_⟩
  · exact hsome ((hp.map key).nodup_iff.1 hn) (fun _ => hp.mem_iff.1) item
  · exact hsome hn (fun _ => hp.mem_iff.2) item

theorem depthFirst_congr {α : Type} [DecidableEq α] {known known' : List α} {next next' : α → List α}
    (hknown : ∀ name, name ∈ known ↔ name ∈ known') (hnext : ∀ name, next name = next' name) (stack met : List α) :
    depthFirst known next stack met = depthFirst known' next' stack met := by
  fun_induction depthFirst known next stack met with
  | case1 met => rw [depthFirst]
  | case2 met name rest h ih => rw [ih, depthFirst_of_new ((hknown name).1 h.1) h.2, hnext]
  | case3 met name rest h ih => rw [ih, depthFirst_of_skip (by rwa [hknown] at h)]

/-- Lists of types that declare the same names with the same references. -/
structure SameReferences (declared declared' : List TypeDefinition) : Prop where
  known : ∀ name, name ∈ knownNames declared ↔ name ∈ knownNames declared'
  references : ∀ name, referencesOf declared name = referencesOf declared' name

namespace SameReferences

variable {declared declared' : List TypeDefinition} {roots : List String} {name : String}

theorem discover_eq (h : SameReferences declared declared') (stack visited : List String) :
    discover declared stack visited = discover declared' stack visited :=
  depthFirst_congr h.known h.references stack visited

theorem reachable (h : SameReferences declared declared') (hr : Reachable roots declared name) :
    Reachable roots declared' name := by
  rw [← mem_discover_iff] at hr ⊢
  rwa [← h.discover_eq]

end SameReferences

theorem sameReferences_of_perm {declared declared' : List TypeDefinition} (hn : (declared.map (·.name)).Nodup)
    (hp : declared.Perm declared') : SameReferences declared declared' where
  known name := by rw [List.mem_append, List.mem_append, (hp.map _).mem_iff]
  references name := by rw [referencesOf, referencesOf, find?_perm hn hp]

theorem Shortening.sameReferences (short : Shortening) (declared : List TypeDefinition) :
    SameReferences declared (declared.map short.shorten) where
  known name := by rw [knownNames, knownNames, short.map_name]
  references name := by rw [short.referencesOf_shorten]

/-! ## Linking in another order -/

section Kinds

variable {kinds kinds' : Kinds} (h : ∀ name, kinds.lookup name = kinds'.lookup name)

include h

theorem FieldType.link_congr (ref : TypeRef) : FieldType.link kinds ref = FieldType.link kinds' ref := by
  induction ref with
  | named name => rw [FieldType.link, FieldType.link, h]
  | list inner ih => exact congrArg FieldType.list ih
  | nonNull inner ih => exact congrArg FieldType.nonNull ih

theorem NamedType.link_congr (type : TypeDefinition) : NamedType.link kinds type = NamedType.link kinds' type := by
  have hfield : LinkedField.link kinds = LinkedField.link kinds' := by
    funext field
    rw [LinkedField.link, LinkedField.link, FieldType.link_congr h]
  rw [NamedType.link, NamedType.link, hfield]

theorem rootsOf_congr (schema : Option SchemaDefinition) : rootsOf kinds schema = rootsOf kinds' schema := by
  cases schema with
  | none => simp only [rootsOf, defaultRoot, h]
  | some schema => simp only [rootsOf, checkedRoot, h]

end Kinds

namespace Declarations

variable {declared declared' : Declarations}

theorem Distinct.names (h : declared.Distinct) : (declared.types.map (·.name)).Nodup := by
  rw [Distinct, kinds_names] at h
  exact (List.nodup_append.1 h).2.1

theorem lookup_kinds_perm (hd : declared.Distinct) (hp : declared.types.Perm declared'.types) (name : String) :
    declared.kinds.lookup name = declared'.kinds.lookup name := by
  rw [kinds, kinds, List.lookup_append, List.lookup_append, lookup_map_kind, lookup_map_kind,
    find?_perm hd.names hp]

end Declarations

namespace Schema

variable {declared declared' : Declarations} {schema : Schema}

theorem typesOf_perm (hd : declared.Distinct) (hp : declared.types.Perm declared'.types) :
    (typesOf declared).Perm (typesOf declared') := by
  rw [typesOf, typesOf, funext (NamedType.link_congr (Declarations.lookup_kinds_perm hd hp))]
  exact (hp.map _).append_right _

/-- The part of a schema that can be reached from its roots. -/
def reached (declared : Declarations) (roots : Roots) : Schema :=
  ⟨roots, (discover declared.types roots.names []).filterMap fun name => (typesOf declared).find? (·.name == name)⟩

/-- In a connected schema all candidates can be reached from the roots. -/
theorem candidates_of_connected (h : ofDeclarations declared = .ok schema)
    (hc : Connected schema.roots.names declared.types) :
    schema.candidates = (reached declared schema.roots).candidates := by
  obtain ⟨roots, -, rfl⟩ := ofDeclarations_eq_ok h
  obtain ⟨others, he, hothers⟩ := discoveryOrder_eq_append roots.names declared.types
  rw [candidates_eq, candidates_eq, he, List.filterMap_append]
  refine (List.filter_append _ _).trans (List.append_right_eq_self.2 (List.filter_eq_nil_iff.2 ?_))
  intro type ht hcandidate
  obtain ⟨name, hn, hfind⟩ := List.mem_filterMap.1 ht
  obtain rfl : type.name = name := by simpa using List.find?_some hfind
  simp only [hasFragments, isRoot, Bool.and_eq_true, beq_iff_eq, Bool.not_eq_true', List.contains_eq_mem,
    decide_eq_false_iff_not] at hcandidate
  obtain ⟨⟨hobject, -⟩, hroot⟩ := hcandidate
  rcases List.mem_append.1 (List.mem_of_find?_eq_some hfind) with hd | hb
  · obtain ⟨written, hw, rfl⟩ := List.mem_map.1 hd
    rw [NamedType.link_name] at hn hroot
    rw [NamedType.link_kind] at hobject
    exact hothers _ hn (hc written hw hobject hroot)
  · obtain ⟨builtIn, -, rfl⟩ := List.mem_map.1 hb
    cases hobject

/-- Declarations of a connected schema in another order link to the same candidates. -/
theorem ofDeclarations_perm_ok (hd : declared.Distinct) (hschema : declared.schema = declared'.schema)
    (hp : declared.types.Perm declared'.types) (h : ofDeclarations declared = .ok schema)
    (hc : Connected schema.roots.names declared.types) :
    ∃ schema', ofDeclarations declared' = .ok schema' ∧ schema'.candidates = schema.candidates := by
  obtain ⟨roots, hr, rfl⟩ := ofDeclarations_eq_ok h
  have hroots : rootsOf declared'.kinds declared'.schema = .ok roots := by
    rw [← hschema, ← rootsOf_congr (Declarations.lookup_kinds_perm hd hp), hr]
  have hsame := sameReferences_of_perm hd.names hp
  obtain ⟨schema', h', hroots'⟩ : ∃ schema', ofDeclarations declared' = .ok schema' ∧ schema'.roots = roots := by
    rw [ofDeclarations, hroots]
    exact ⟨_, rfl, rfl⟩
  have hc' : Connected schema'.roots.names declared'.types := by
    rw [hroots']
    exact fun type ht hobject hroot => hsame.reachable (hc type (hp.mem_iff.2 ht) hobject hroot)
  have hfind (name : String) : (typesOf declared).find? (·.name == name) = (typesOf declared').find? (·.name == name) :=
    find?_perm (typesOf_names_nodup hd) (typesOf_perm hd hp) name
  refine ⟨schema', h', ?_⟩
  rw [candidates_of_connected h' hc', candidates_of_connected h hc, hroots', reached, reached, ← hsame.discover_eq,
    ← funext hfind]

end Schema

/-! ## Documents in another order -/

variable {document document' : List Definition}

theorem DistinctNames.perm (h : DistinctNames document) (hp : document.Perm document') : DistinctNames document' where
  schemas := (hp.filterMap _).length_eq ▸ h.schemas
  types := (((hp.filterMap _).filter _).nodup_iff).1 h.types
  builtIns type ht := h.builtIns type (hp.mem_iff.2 ht)

theorem RootsDeclared.perm (h : RootsDeclared document) (hp : document.Perm document') : RootsDeclared document' := by
  intro schema hs operation name hroot
  obtain ⟨type, ht, hobject⟩ := h schema (hp.mem_iff.2 hs) operation name hroot
  exact ⟨type, hp.mem_iff.1 ht, hobject⟩

namespace Schema

variable {schema : Schema}

theorem exists_declared_of_ofDocument (h : ofDocument document = .ok schema) : ∃ declared,
    Declarations.ofDocument document = .ok declared ∧ ofDeclarations declared = .ok schema := by
  obtain ⟨declared, hd, h⟩ := exists_ok_of_bind h
  exact ⟨declared, hd, h⟩

theorem ofDocument_perm (hp : document.Perm document') (h : ofDocument document = .ok schema)
    (hc : Connected schema.roots.names (Declarations.typesOf document)) :
    ∃ schema', ofDocument document' = .ok schema' ∧ schema'.candidates = schema.candidates := by
  obtain ⟨hnames, hroots⟩ := exists_ofDocument_iff.1 ⟨schema, h⟩
  obtain ⟨schema', h'⟩ := exists_ofDocument_iff.2 ⟨hnames.perm hp, hroots.perm hp⟩
  obtain ⟨declared, hd, hlinked⟩ := exists_declared_of_ofDocument h
  obtain ⟨declared', hd', hlinked'⟩ := exists_declared_of_ofDocument h'
  obtain ⟨htypes, hdistinct⟩ := Declarations.ofDocument_ok hd
  obtain ⟨htypes', -⟩ := Declarations.ofDocument_ok hd'
  have hschemas : declared.schema = declared'.schema := by
    refine Option.ext fun definition => ?_
    rw [schema_eq_some_iff hd, schema_eq_some_iff hd', hp.mem_iff]
  have hperm : declared.types.Perm declared'.types := by
    rw [htypes, htypes', Declarations.typesOf, Declarations.typesOf]
    exact (hp.filterMap _).filter _
  rw [← htypes] at hc
  obtain ⟨schema'', hok, hcandidates⟩ := ofDeclarations_perm_ok hdistinct hschemas hperm hlinked hc
  obtain rfl := Except.ok.inj (hlinked'.symm.trans hok)
  exact ⟨schema', h', hcandidates⟩

end Schema

/-! ## Compiling -/

theorem FragmentSet.ofSchema_congr {schema schema' : Schema} (h : schema'.candidates = schema.candidates) :
    FragmentSet.ofSchema schema' = FragmentSet.ofSchema schema := by
  rw [FragmentSet.ofSchema, FragmentSet.ofSchema, h]

theorem typesOf_plain (document : List Definition) :
    Declarations.typesOf ((outline document).map DefinitionOutline.plain) =
      (Declarations.typesOf document).map Shortening.plain.shorten := by
  have htypes : ((outline document).map DefinitionOutline.plain).filterMap Definition.type? =
      (document.filterMap Definition.type?).map Shortening.plain.shorten := by
    rw [outline, List.filterMap_map, List.filterMap_filterMap, List.map_filterMap]
    refine List.filterMap_congr fun definition _ => ?_
    cases definition <;> rfl
  rw [Declarations.typesOf, Declarations.typesOf, htypes, List.filter_map]
  simp only [Function.comp_def, Shortening.redeclaresBuiltIn_shorten]

/-- A plain document is as connected as the one it is the outline of. -/
theorem connected_plain {roots : List String} (h : Connected roots (Declarations.typesOf document)) :
    Connected roots (Declarations.typesOf ((outline document).map DefinitionOutline.plain)) := by
  rw [typesOf_plain]
  intro type ht hobject hroot
  obtain ⟨written, hw, rfl⟩ := List.mem_map.1 ht
  rw [Shortening.kind] at hobject
  rw [Shortening.name] at hroot ⊢
  exact (Shortening.plain.sameReferences _).reachable (h written hw hobject hroot)

/-- A text with a connected schema and another text with the same definitions in any order compile to the same
fragments and contents. Nothing but the outlines of the definitions has to be the same. -/
theorem compile_reordered {text text' : String} {schema : Schema} (hschema : Schema.parse text = .ok schema)
    (h : Document.parse text = .ok document) (h' : Document.parse text' = .ok document')
    (hconnected : Connected schema.roots.names (Declarations.typesOf document))
    (hperm : (outline document).Perm (outline document')) (dialect : Dialect) :
    ∃ compiled, compile text dialect = .ok compiled ∧ compile text' dialect = .ok compiled := by
  rw [Schema.parse_of_document h] at hschema
  -- both documents link as their plain documents do, and these are permutations of each other
  have hplain := Schema.ofDocument_plain document
  have hplain' := Schema.ofDocument_plain document'
  rw [hschema] at hplain
  obtain ⟨linked, hlinked, hcandidates⟩ :=
    Schema.ofDocument_perm (hperm.map DefinitionOutline.plain) hplain (connected_plain hconnected)
  rw [hlinked] at hplain'
  cases hschema' : Schema.ofDocument document' with
  | error error =>
    rw [hschema'] at hplain'
    cases hplain'
  | ok schema' =>
    rw [hschema'] at hplain'
    obtain rfl := Except.ok.inj hplain'
    have hfragments : FragmentSet.ofSchema schema' = FragmentSet.ofSchema schema := by
      rw [← FragmentSet.ofSchema_stripped schema', FragmentSet.ofSchema_congr hcandidates,
        FragmentSet.ofSchema_stripped]
    refine ⟨_, compile_of_parse ((Schema.parse_of_document h).trans hschema) dialect, ?_⟩
    rw [← hfragments]
    exact compile_of_parse ((Schema.parse_of_document h').trans hschema') dialect

def shelvedBooks : String := "type Query { shelf(of: In): Shelf } type Shelf { books: [Book] } type Book { shelf: Shelf }
input In { by: Owner } type Owner { id: ID }"

def reversedBooks : String := "type Owner { id: ID } input In { by: Owner } type Book { shelf: Shelf }
type Shelf { books: Book } type Query { shelf(in: In): Shelf! }"

def shelvedOutline : List DefinitionOutline :=
  [.type "Query" (.object [] [⟨"shelf", ["In"], "Shelf"⟩]), .type "Shelf" (.object [] [⟨"books", [], "Book"⟩]),
    .type "Book" (.object [] [⟨"shelf", [], "Shelf"⟩]), .type "In" (.inputObject [("by", "Owner")]),
    .type "Owner" (.object [] [⟨"id", [], "ID"⟩])]

theorem outline_shelvedBooks : (Document.parse shelvedBooks).toOption.any (fun document =>
    decide (outline document = shelvedOutline)) = true := by decide +kernel

theorem outline_reversedBooks : (Document.parse reversedBooks).toOption.any (fun document =>
    decide (outline document = shelvedOutline.reverse)) = true := by decide +kernel

theorem shelvedBooks_connected : (Schema.parse shelvedBooks).toOption.any (fun schema =>
    (Document.parse shelvedBooks).toOption.any fun document =>
      decide (Connected schema.roots.names (Declarations.typesOf document))) = true := by decide +kernel

/-- References go in a circle, and `Owner` is only found through an argument. -/
theorem reversedBooks_compile_alike : (∃ schema, Schema.parse shelvedBooks = .ok schema) ∧ ∀ dialect, ∃ compiled,
    compile shelvedBooks dialect = .ok compiled ∧ compile reversedBooks dialect = .ok compiled := by
  obtain ⟨document, h, houtline⟩ := exists_ok_of_any outline_shelvedBooks
  obtain ⟨document', h', houtline'⟩ := exists_ok_of_any outline_reversedBooks
  obtain ⟨schema, hschema, hconnected⟩ := exists_ok_of_any shelvedBooks_connected
  rw [h] at hconnected
  refine ⟨⟨schema, hschema⟩, compile_reordered hschema h h' (of_decide_eq_true hconnected) ?_⟩
  rw [of_decide_eq_true houtline, of_decide_eq_true houtline']
  exact (List.reverse_perm _).symm

/-- Without references from a root the order of the definitions is that of the fragments. -/
example : ((Schema.parse "type A { id: ID } type B { id: ID }").toOption.map fun schema =>
      schema.candidates.map (·.name)) = some ["A", "B"] ∧
    ((Schema.parse "type B { id: ID } type A { id: ID }").toOption.map fun schema =>
      schema.candidates.map (·.name)) = some ["B", "A"] := by
  simp only [Schema.candidates_eq]
  decide +kernel

end SchemaFragments
