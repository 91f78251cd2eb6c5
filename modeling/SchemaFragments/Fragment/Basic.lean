import SchemaFragments.Schema.Basic
/-!
# Fragments

The three fragments that every candidate type of a schema gets. They differ in what they select of a
field that holds objects.
-/

namespace SchemaFragments

inductive Variant where
  /-- Relations spread the related type's fragment without relations. -/
  | standard
  /-- Relations are left out. -/
  | noRelations
  /-- Relations spread the related type's deep fragment. -/
  | deep
deriving DecidableEq, Repr

namespace Variant

def all : List Variant := [.standard, .noRelations, .deep]

def nameEnding : Variant → String
  | .standard => ""
  | .noRelations => "NoNesting"
  | .deep => "DeepNesting"

def fragmentName (variant : Variant) (typeName : String) : String := typeName ++ variant.nameEnding

/-- The variant spread inside a relation, if relations are selected at all. -/
def nested : Variant → Option Variant
  | .standard => some .noRelations
  | .noRelations => none
  | .deep => some .deep

end Variant

structure Fragment where
  typeName : String
  variant : Variant
  body : String
deriving DecidableEq, Repr

namespace Fragment

def name (fragment : Fragment) : String := fragment.variant.fragmentName fragment.typeName

/-- The name a fragment is exported under. -/
def bindingName (fragment : Fragment) : String := fragment.name ++ "Fragment"

/-! ## Bodies -/

/-- Selected when nothing else is. -/
def emptySelection : String := "__typename"

/-- What a fragment selects of a field, if anything. -/
def selection (variant : Variant) (field : LinkedField) : Option String :=
  match field.type.resolve with
  | .scalar | .enum => some field.name
  | .object related => variant.nested.map fun nested =>
    field.name ++ " \x7b\n    ..." ++ nested.fragmentName related ++ "\n  \x7d"
  | .unresolvable => none

def selections (variant : Variant) (fields : List LinkedField) : List String :=
  match fields.filterMap (selection variant) with
  | [] => [emptySelection]
  | selected => selected

def bodyOf (variant : Variant) (type : NamedType) : String :=
  "fragment " ++ variant.fragmentName type.name ++ " on " ++ type.name ++ " \x7b\n  " ++
    "\n  ".intercalate (selections variant type.fields) ++ "\n\x7d\n"

def ofType (variant : Variant) (type : NamedType) : Fragment := ⟨type.name, variant, bodyOf variant type⟩

end Fragment

/-- Whether a type gets fragments: an object type that is neither an introspection type nor a root. -/
def Schema.hasFragments (schema : Schema) (type : NamedType) : Bool :=
  type.kind == .object && !type.isIntrospection && !schema.isRoot type.name

/-- The types that get fragments, by the names of their categories and then in the order of discovery. -/
def Schema.candidates (schema : Schema) : List NamedType :=
  (schema.types.filter schema.hasFragments).mergeSort fun type other => type.kind.metaKind ≤ other.kind.metaKind

theorem Schema.kind_of_hasFragments {schema : Schema} {type : NamedType} (h : schema.hasFragments type = true) :
    type.kind = .object := by
  simp only [hasFragments, Bool.and_eq_true, beq_iff_eq] at h
  exact h.1.1

/-- All candidates are of one category, so sorting leaves them in the order of discovery. -/
theorem Schema.candidates_eq (schema : Schema) : schema.candidates = schema.types.filter schema.hasFragments := by
  refine List.mergeSort_of_pairwise (List.pairwise_iff_forall_sublist.2 ?_)
  intro type other hpair
  have hkind : ∀ candidate ∈ [type, other], candidate.kind = .object := fun candidate hm =>
    kind_of_hasFragments (List.mem_filter.1 (hpair.subset hm)).2
  rw [hkind type (by simp), hkind other (by simp)]
  exact decide_eq_true (String.le_refl _)

theorem Schema.mem_candidates {schema : Schema} {type : NamedType} :
    type ∈ schema.candidates ↔ type ∈ schema.types ∧ schema.hasFragments type = true := by
  rw [candidates_eq, List.mem_filter]

/-- The fragments of a schema, one list for each variant. -/
structure FragmentSet where
  standard : List Fragment
  noRelations : List Fragment
  deep : List Fragment
deriving DecidableEq, Repr

namespace FragmentSet

def get (fragments : FragmentSet) : Variant → List Fragment
  | .standard => fragments.standard
  | .noRelations => fragments.noRelations
  | .deep => fragments.deep

def ofSchema (schema : Schema) : FragmentSet :=
  let each (variant : Variant) := schema.candidates.map (Fragment.ofType variant)
  ⟨each .standard, each .noRelations, each .deep⟩

end FragmentSet

end SchemaFragments
