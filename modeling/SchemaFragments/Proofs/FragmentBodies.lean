import SchemaFragments.Proofs.FragmentTexts
import SchemaFragments.Proofs.SchemaTypes
/-!
# Bodies of fragments

What the fragments of an object type select is decided by its fields in the document: by the category of the
type that stands inside a field's modifiers. Their bodies say this and no more, since they can be read back.
-/

namespace SchemaFragments

open Document

/-! ## What is selected -/

/-- A field by itself, or a field that holds objects and a fragment spread in it. -/
inductive FieldSelection where
  | plain (field : String)
  | relation (field spread : String)
deriving DecidableEq, Repr

namespace FieldSelection

def field : FieldSelection → String
  | .plain field | .relation field _ => field

def isPlain : FieldSelection → Bool
  | .plain _ => true
  | .relation .. => false

def text : FieldSelection → String
  | .plain field => field
  | .relation field spread => field ++ " \x7b\n    ..." ++ spread ++ "\n  \x7d"

/-- All names in a selection consist of letters, digits and underscores. -/
def Named (selection : FieldSelection) : Prop :=
  (∀ c ∈ selection.field.toList, isNameChar c = true) ∧
    ∀ spread, selection = .relation selection.field spread → ∀ c ∈ spread.toList, isNameChar c = true

/-- Selects the type name where nothing else is selected. -/
def orTypeName : List FieldSelection → List FieldSelection
  | [] => [.plain "__typename"]
  | selections => selections

end FieldSelection

/-- What the fragment of a variant selects of a field: scalars and enums in any case, objects by a spread of one
of their fragments or not at all, and nothing else. -/
def selectionOf (document : List Definition) (variant : Variant) (field : Document.Field) : Option FieldSelection :=
  match categoryOf document field.type.target, variant with
  | some .scalar, _ | some .enum, _ => some (.plain field.name)
  | some .object, .standard => some (.relation field.name (field.type.target ++ "NoNesting"))
  | some .object, .deep => some (.relation field.name (field.type.target ++ "DeepNesting"))
  | some .object, .noRelations => none
  | some .interface, _ | some .union, _ | some .inputObject, _ | none, _ => none

def selectionsOf (document : List Definition) (variant : Variant) (fields : List Document.Field) :
    List FieldSelection :=
  FieldSelection.orTypeName (fields.filterMap (selectionOf document variant))

/-- A fragment as it is written: its selections one after the other, between its head and a closing brace. -/
def bodyText (name type : String) (selections : List FieldSelection) : String :=
  "fragment " ++ name ++ " on " ++ type ++ " \x7b\n" ++
    String.join (selections.map fun selection => "  " ++ selection.text ++ "\n") ++ "\x7d\n"

/-! ## Reading back -/

/-- Reads the line of a field, and whether a block follows it. -/
def readField : List Char → Option (String × Bool)
  | ' ' :: ' ' :: text =>
    match Text.splitAt ' ' text with
    | [field] => some (String.ofList field, false)
    | [field, ['\x7b']] => some (String.ofList field, true)
    | _ => none
  | _ => none

def readSpread : List Char → Option String
  | ' ' :: ' ' :: ' ' :: ' ' :: '.' :: '.' :: '.' :: spread => some (String.ofList spread)
  | _ => none

/-- Reads the lines of selections up to the closing brace of the fragment. -/
def readSelections : List (List Char) → Option (List FieldSelection)
  | [] => none
  | line :: lines =>
    match readField line with
    | some (field, false) => (readSelections lines).map (.plain field :: ·)
    | some (field, true) =>
      match lines with
      | inner :: close :: lines => do
        let spread ← readSpread inner
        if close = [' ', ' ', '\x7d'] then (readSelections lines).map (.relation field spread :: ·) else none
      | _ => none
    | none => if line = ['\x7d'] ∧ lines = [[]] then some [] else none

/-- Reads a fragment: its name, the name of its type and its selections. -/
def readBody (body : List Char) : Option (String × String × List FieldSelection) :=
  match Text.splitAt '\n' body with
  | [] => none
  | head :: lines =>
    match Text.splitAt ' ' head with
    | [keyword, name, on, type, ['\x7b']] =>
      if keyword = "fragment".toList ∧ on = "on".toList then
        (readSelections lines).map fun selections => (String.ofList name, String.ofList type, selections)
      else none
    | _ => none

namespace FieldSelection

/-- The lines of a selection. -/
def lines : FieldSelection → List (List Char)
  | .plain field => [' ' :: ' ' :: field.toList]
  | .relation field spread =>
    [' ' :: ' ' :: (field.toList ++ [' ', '\x7b']), ' ' :: ' ' :: ' ' :: ' ' :: '.' :: '.' :: '.' :: spread.toList,
      [' ', ' ', '\x7d']]

theorem splitAt_text {selection : FieldSelection} (h : selection.Named) (rest : List Char) :
    Text.splitAt '\n' (("  " ++ selection.text ++ "\n").toList ++ rest) =
      selection.lines ++ Text.splitAt '\n' rest := by
  cases selection with
  | plain name =>
    have hname : '\n' ∉ name.toList := notMem_of_isNameChar h.1 (by decide)
    have htext : ("  " ++ text (.plain name) ++ "\n").toList ++ rest = (' ' :: ' ' :: name.toList) ++ '\n' :: rest := by
      simp [text]
    rw [htext, splitAt_append (by simpa using hname)]
    rfl
  | relation name spread =>
    have hname : '\n' ∉ name.toList := notMem_of_isNameChar h.1 (by decide)
    have hspread : '\n' ∉ spread.toList := notMem_of_isNameChar (h.2 spread rfl) (by decide)
    have htext : ("  " ++ text (.relation name spread) ++ "\n").toList ++ rest =
        (' ' :: ' ' :: (name.toList ++ [' ', '\x7b'])) ++ '\n' ::
          ((' ' :: ' ' :: ' ' :: ' ' :: '.' :: '.' :: '.' :: spread.toList) ++ '\n' ::
            ([' ', ' ', '\x7d'] ++ '\n' :: rest)) := by
      simp [text]
    rw [htext, splitAt_append (by simpa using hname), splitAt_append (by simpa using hspread),
      splitAt_append (by decide)]
    rfl

theorem readSelections_lines {selection : FieldSelection} (h : selection.Named) (rest : List (List Char)) :
    readSelections (selection.lines ++ rest) = (readSelections rest).map (selection :: ·) := by
  cases selection with
  | plain name =>
    have hname : ' ' ∉ name.toList := notMem_of_isNameChar h.1 (by decide)
    have hfield : readField (' ' :: ' ' :: name.toList) = some (name, false) := by
      simp [readField, splitAt_of_notMem hname]
    rw [lines, List.singleton_append, readSelections, hfield]
  | relation name spread =>
    have hname : ' ' ∉ name.toList := notMem_of_isNameChar h.1 (by decide)
    have hfield : readField (' ' :: ' ' :: (name.toList ++ [' ', '\x7b'])) = some (name, true) := by
      rw [readField, splitAt_append hname, splitAt_of_notMem (by decide)]
      simp
    have hspread : readSpread (' ' :: ' ' :: ' ' :: ' ' :: '.' :: '.' :: '.' :: spread.toList) = some spread := by
      simp [readSpread]
    simp only [lines, List.cons_append, List.nil_append, readSelections, hfield, hspread]
    rfl

end FieldSelection

/-- A list of selections can be read back from its lines. -/
theorem readSelections_splitAt {selections : List FieldSelection} (h : ∀ selection ∈ selections, selection.Named) :
    readSelections (Text.splitAt '\n' ((String.join (selections.map fun selection => "  " ++ selection.text ++ "\n") ++
      "\x7d\n").toList)) = some selections := by
  induction selections with
  | nil => decide
  | cons selection selections ih =>
    obtain ⟨hnamed, hothers⟩ := List.forall_mem_cons.1 h
    have htext : (String.join ((selection :: selections).map fun selection => "  " ++ selection.text ++ "\n") ++
        "\x7d\n").toList = ("  " ++ selection.text ++ "\n").toList ++
          (String.join (selections.map fun selection => "  " ++ selection.text ++ "\n") ++ "\x7d\n").toList := by
      rw [List.map_cons, String.join_cons, String.append_assoc, String.toList_append]
    rw [htext, FieldSelection.splitAt_text hnamed, FieldSelection.readSelections_lines hnamed, ih hothers]
    rfl

/-- A fragment can be read back from its text. -/
theorem readBody_bodyText {name type : String} {selections : List FieldSelection}
    (hname : ∀ c ∈ name.toList, isNameChar c = true) (htype : ∀ c ∈ type.toList, isNameChar c = true)
    (h : ∀ selection ∈ selections, selection.Named) :
    readBody (bodyText name type selections).toList = some (name, type, selections) := by
  have hplain : ∀ {word : String} {c : Char}, (∀ c ∈ word.toList, isNameChar c = true) → isNameChar c = false →
      c ∉ word.toList := notMem_of_isNameChar
  have hhead : Text.splitAt ' ' ("fragment".toList ++ ' ' :: (name.toList ++ ' ' :: ("on".toList ++
      ' ' :: (type.toList ++ [' ', '\x7b'])))) = ["fragment".toList, name.toList, "on".toList, type.toList, ['\x7b']] := by
    rw [splitAt_append (by decide), splitAt_append (hplain hname (by decide)), splitAt_append (by decide),
      splitAt_append (hplain htype (by decide)), splitAt_of_notMem (by decide)]
  have htext : (bodyText name type selections).toList = ("fragment".toList ++ ' ' :: (name.toList ++ ' ' ::
      ("on".toList ++ ' ' :: (type.toList ++ [' ', '\x7b'])))) ++ '\n' ::
        (String.join (selections.map fun selection => "  " ++ selection.text ++ "\n") ++ "\x7d\n").toList := by
    simp [bodyText]
  -- no name has a line end, so the head is a line by itself
  have hline : '\n' ∉ "fragment".toList ++ ' ' :: (name.toList ++ ' ' :: ("on".toList ++
      ' ' :: (type.toList ++ [' ', '\x7b']))) := by
    simp [hplain hname (show isNameChar '\n' = false by decide), hplain htype (show isNameChar '\n' = false by decide)]
  rw [htext, readBody, splitAt_append hline]
  simp only [hhead, readSelections_splitAt h]
  simp

/-! ## The three variants -/

namespace FieldSelection

theorem map_field_orTypeName (selections : List FieldSelection) :
    (orTypeName selections).map field = match selections.map field with
      | [] => ["__typename"]
      | fields => fields := by
  cases selections <;> rfl

theorem orTypeName_filter (selections : List FieldSelection) :
    orTypeName ((orTypeName selections).filter isPlain) = orTypeName (selections.filter isPlain) := by
  cases selections <;> rfl

theorem mem_orTypeName {selections : List FieldSelection} {selection : FieldSelection}
    (h : selection ∈ orTypeName selections) : selection = .plain "__typename" ∨ selection ∈ selections := by
  cases selections with
  | nil => exact .inl (List.mem_singleton.1 h)
  | cons first others => exact .inr h

end FieldSelection

section Variants

variable {document : List Definition} {variant : Variant} {fields : List Document.Field}

theorem selectionOf_plain_or_relation {field : Document.Field} {selection : FieldSelection}
    (h : selectionOf document variant field = some selection) : selection = .plain field.name ∨
      categoryOf document field.type.target = some .object ∧ ∃ nested, variant.nested = some nested ∧
        selection = .relation field.name (nested.fragmentName field.type.target) := by
  unfold selectionOf at h
  split at h <;> cases h
  · exact .inl rfl
  · exact .inl rfl
  · exact .inr ⟨‹_›, .noRelations, rfl, rfl⟩
  · exact .inr ⟨‹_›, .deep, rfl, rfl⟩

/-- The standard and the deep fragment select the same fields. -/
theorem selectionsOf_deep_fields : (selectionsOf document .deep fields).map FieldSelection.field =
    (selectionsOf document .standard fields).map FieldSelection.field := by
  unfold selectionsOf
  rw [FieldSelection.map_field_orTypeName, FieldSelection.map_field_orTypeName, List.map_filterMap,
    List.map_filterMap]
  have hfield : ∀ field, (selectionOf document .deep field).map FieldSelection.field =
      (selectionOf document .standard field).map FieldSelection.field := by
    intro field
    unfold selectionOf
    cases categoryOf document field.type.target with
    | none => rfl
    | some kind => cases kind <;> rfl
  simp only [hfield]

/-- The fragment without relations is the standard one without its relations. -/
theorem selectionsOf_noRelations : selectionsOf document .noRelations fields =
    FieldSelection.orTypeName ((selectionsOf document .standard fields).filter FieldSelection.isPlain) := by
  unfold selectionsOf
  rw [FieldSelection.orTypeName_filter, List.filter_filterMap]
  have hfield : ∀ field, selectionOf document .noRelations field =
      (selectionOf document .standard field).filter FieldSelection.isPlain := by
    intro field
    unfold selectionOf
    cases categoryOf document field.type.target with
    | none => rfl
    | some kind => cases kind <;> rfl
  simp only [hfield]

/-- A fragment without relations spreads nothing. -/
theorem isPlain_of_noRelations {selection : FieldSelection} (h : selection ∈ selectionsOf document .noRelations fields) :
    selection.isPlain = true := by
  rcases FieldSelection.mem_orTypeName h with rfl | h
  · rfl
  · obtain ⟨field, -, hs⟩ := List.mem_filterMap.1 h
    rcases selectionOf_plain_or_relation hs with rfl | ⟨-, nested, hn, -⟩
    · rfl
    · cases hn

/-- A standard fragment spreads fragments without relations, of object types. -/
theorem spread_of_standard {field spread : String}
    (h : .relation field spread ∈ selectionsOf document .standard fields) :
    ∃ related, spread = Variant.noRelations.fragmentName related ∧ categoryOf document related = some .object := by
  rcases FieldSelection.mem_orTypeName h with h | h
  · cases h
  · obtain ⟨field, -, hs⟩ := List.mem_filterMap.1 h
    rcases selectionOf_plain_or_relation hs with h | ⟨hk, nested, hn, h⟩
    · cases h
    · cases h
      cases hn
      exact ⟨field.type.target, rfl, hk⟩

end Variants

/-! ## From the document to the bodies -/

/-- What a linked reference selects is decided by the category of its target. -/
theorem FieldType.resolve_link {kinds : Kinds} (ref : TypeRef) : (FieldType.link kinds ref).resolve =
    match kinds.lookup ref.target with
    | some .scalar => .scalar
    | some .enum => .enum
    | some .object => .object ref.target
    | _ => .unresolvable := by
  induction ref with
  | named name =>
    rw [FieldType.link, TypeRef.target]
    cases kinds.lookup name with
    | none => rfl
    | some kind => cases kind <;> rfl
  | list inner ih => exact ih
  | nonNull inner ih => exact ih

section Bodies

variable {document : List Definition} {declared : Declarations}

theorem selection_link (hd : Declarations.ofDocument document = .ok declared) (variant : Variant)
    (field : Document.Field) : Fragment.selection variant (.link declared.kinds field) =
      (selectionOf document variant field).map FieldSelection.text := by
  unfold Fragment.selection selectionOf
  rw [LinkedField.link, FieldType.resolve_link, Declarations.lookup_kinds hd]
  cases categoryOf document field.type.target with
  | none => rfl
  | some kind => cases kind <;> cases variant <;> rfl

theorem selections_link (hd : Declarations.ofDocument document = .ok declared) (variant : Variant)
    (fields : List Document.Field) : Fragment.selections variant (fields.map (.link declared.kinds)) =
      (selectionsOf document variant fields).map FieldSelection.text := by
  have hselected : (fields.map (.link declared.kinds)).filterMap (Fragment.selection variant) =
      (fields.filterMap (selectionOf document variant)).map FieldSelection.text := by
    rw [List.filterMap_map, List.map_filterMap]
    exact List.filterMap_congr fun field _ => selection_link hd variant field
  rw [Fragment.selections, hselected, selectionsOf]
  cases fields.filterMap (selectionOf document variant) <;> rfl

theorem bodyOf_link (hd : Declarations.ofDocument document = .ok declared) {variant : Variant} {name : String}
    {fields : List Document.Field} :
    Fragment.bodyOf variant ⟨name, .object, fields.map (.link declared.kinds)⟩ =
      bodyText (variant.fragmentName name) name (selectionsOf document variant fields) := by
  rw [Fragment.bodyOf_eq, selections_link hd, List.map_map]
  rfl

/-- Names that a selection takes from a document are names of the language. -/
theorem named_selection (hd : Declarations.ofDocument document = .ok declared)
    (hn : ∀ type ∈ declared.types, WellNamed type) {variant : Variant} {fields : List Document.Field}
    (hf : ∀ field ∈ fields, IsName field.name) {selection : FieldSelection}
    (h : selection ∈ selectionsOf document variant fields) : selection.Named := by
  rcases FieldSelection.mem_orTypeName h with rfl | h
  · exact ⟨List.all_eq_true.1 (by decide), fun spread hs => by cases hs⟩
  · obtain ⟨field, hm, hs⟩ := List.mem_filterMap.1 h
    rcases selectionOf_plain_or_relation hs with rfl | ⟨hk, nested, -, rfl⟩
    · exact ⟨(hf field hm).all, fun spread hs => by cases hs⟩
    · refine ⟨(hf field hm).all, fun spread hs => ?_⟩
      -- the spread is of a declared type, whose name is one of the language
      rw [← Declarations.lookup_kinds hd] at hk
      obtain ⟨type, ht, he, -⟩ := Declarations.exists_of_lookup hk (by decide)
      cases hs
      rw [← he]
      exact nested.isNameChar_of_mem_fragmentName (hn type ht).1

/-- What the three fragments of an object type with these fields in a document look like. -/
structure Written (document : List Definition) (type : NamedType) (fields : List Document.Field) : Prop where
  /-- A body holds what the fields select, in their order. -/
  body : ∀ variant, Fragment.bodyOf variant type =
    bodyText (variant.fragmentName type.name) type.name (selectionsOf document variant fields)
  /-- This can be read back from it. -/
  readBody : ∀ variant, readBody (Fragment.bodyOf variant type).toList =
    some (variant.fragmentName type.name, type.name, selectionsOf document variant fields)
  deep : (selectionsOf document .deep fields).map FieldSelection.field =
    (selectionsOf document .standard fields).map FieldSelection.field
  noRelations : selectionsOf document .noRelations fields =
    FieldSelection.orTypeName ((selectionsOf document .standard fields).filter FieldSelection.isPlain)
  /-- Spreads of the standard fragment lead to fragments without relations, and these spread nothing. -/
  spread : ∀ field spread, .relation field spread ∈ selectionsOf document .standard fields →
    ∃ related, spread = Variant.noRelations.fragmentName related ∧ categoryOf document related = some .object
  plain : ∀ selection ∈ selectionsOf document .noRelations fields, selection.isPlain = true

/-- A candidate is an object type of the document with its fields linked. -/
theorem exists_declared_of_candidate {schema : Schema} (hd : Declarations.ofDocument document = .ok declared)
    (h : Schema.ofDeclarations declared = .ok schema) {type : NamedType} (ht : type ∈ schema.candidates) :
    ∃ written ∈ declared.types, ∃ interfaces fields, written.body = .object interfaces fields ∧
      type = ⟨written.name, .object, fields.map (.link declared.kinds)⟩ := by
  obtain ⟨hm, hc⟩ := Schema.mem_candidates.1 ht
  have hk := Schema.kind_of_hasFragments hc
  have hp := Schema.ofDeclarations_perm (Declarations.ofDocument_ok hd).2 h
  rcases List.mem_append.1 (hp.mem_iff.1 hm) with hm | hm <;> obtain ⟨written, hw, rfl⟩ := List.mem_map.1 hm
  · refine ⟨written, hw, ?_⟩
    rw [NamedType.link_kind, TypeDefinition.kind] at hk
    cases hb : written.body with rw [hb] at hk
    | object interfaces fields => exact ⟨interfaces, fields, rfl, by rw [NamedType.link, hb]⟩
    | scalar | interface | union | enum | inputObject => cases hk
  · cases hk

/-- The fragments of a schema that links are those of its candidates, and what is written in them is decided
by the fields that the document gives to these types. -/
theorem bodies_written {text : String} {schema : Schema} (h : Schema.parse text = .ok schema) :
    (∀ variant, (FragmentSet.ofSchema schema).get variant = schema.candidates.map (Fragment.ofType variant)) ∧
    ∃ document, Document.parse text = .ok document ∧ ∀ type ∈ schema.candidates,
      ∃ definition ∈ Declarations.typesOf document, ∃ interfaces fields, definition.name = type.name ∧
        definition.body = .object interfaces fields ∧ Written document type fields := by
  refine ⟨FragmentSet.get_ofSchema schema, ?_⟩
  obtain ⟨document, declared, hdocument, hd, h⟩ := Schema.exists_document_of_parse h
  have htypes := (Declarations.ofDocument_ok hd).1
  have hn : ∀ type ∈ declared.types, WellNamed type := by
    intro type ht
    rw [htypes] at ht
    obtain ⟨definition, hm, ht⟩ := Declarations.mem_typesOf ht
    exact wellNamed_of_parse hdocument hm ht
  refine ⟨document, hdocument, fun type ht => ?_⟩
  obtain ⟨definition, hm, interfaces, fields, hb, rfl⟩ := exists_declared_of_candidate hd h ht
  refine ⟨definition, htypes ▸ hm, interfaces, fields, rfl, hb, ?_⟩
  obtain ⟨hname, hfields⟩ := hn definition hm
  rw [hb] at hfields
  refine ⟨fun variant => bodyOf_link hd, fun variant => ?_, selectionsOf_deep_fields, selectionsOf_noRelations,
    fun field spread => spread_of_standard, fun selection => isPlain_of_noRelations⟩
  rw [bodyOf_link hd]
  exact readBody_bodyText (variant.isNameChar_of_mem_fragmentName hname) hname.all
    fun selection => named_selection hd hn fun field hf => hfields _ (List.mem_map_of_mem hf)

/-- A schema with modifiers, an enum, a union, a missing type and a cycle. -/
def shelfSchema : String :=
  "enum Genre \x7b A \x7d union Any = Book type Shelf \x7b label: [String!]! genre: Genre books: [Book!] any: Any gone: Gone \x7d type Book \x7b shelf: Shelf \x7d"

theorem shelfSchema_bodies_written : ∃ schema document,
    Schema.parse shelfSchema = .ok schema ∧ Document.parse shelfSchema = .ok document ∧
    schema.candidates.map (Fragment.bodyOf .standard) =
      ["fragment Book on Book \x7b\n  shelf \x7b\n    ...ShelfNoNesting\n  \x7d\n\x7d\n",
       "fragment Shelf on Shelf \x7b\n  label\n  genre\n  books \x7b\n    ...BookNoNesting\n  \x7d\n\x7d\n"] ∧
    ∀ type ∈ schema.candidates, ∃ definition ∈ Declarations.typesOf document, ∃ interfaces fields,
      definition.name = type.name ∧ definition.body = .object interfaces fields ∧ Written document type fields := by
  have hrun : (Schema.parse shelfSchema).toOption.any
      (fun schema => decide (schema.candidates.map (Fragment.bodyOf .standard) =
        ["fragment Book on Book \x7b\n  shelf \x7b\n    ...ShelfNoNesting\n  \x7d\n\x7d\n",
         "fragment Shelf on Shelf \x7b\n  label\n  genre\n  books \x7b\n    ...BookNoNesting\n  \x7d\n\x7d\n"])) = true := by
    simp only [Schema.candidates_eq]
    decide +kernel
  obtain ⟨schema, hs, hb⟩ := exists_ok_of_any hrun
  obtain ⟨-, document, hdocument, hwritten⟩ := bodies_written hs
  exact ⟨schema, document, hs, hdocument, of_decide_eq_true hb, hwritten⟩

end Bodies

end SchemaFragments
