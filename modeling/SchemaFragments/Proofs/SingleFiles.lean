import SchemaFragments.Fragment.Rendering
import SchemaFragments.Proofs.BareDocuments
import SchemaFragments.Proofs.Clashes
/-!
# Schemas without imports

The combined document of a single file holds its schema and type definitions in their order, with object types
of the names of roots merged. `compile_single_iff`: when compiling this document comes to the same as compiling
the text of the file.
-/

namespace SchemaFragments

open Document

/-! ## What is combined -/

namespace Import

/-- The definitions of one file as they are combined. -/
def merged (document : List Definition) : List Definition :=
  (mergeRoots ((document.filter isSelectable).map ((0 : Nat), ·))).map (·.2)

theorem restrict_all (definition : Definition) : restrict .all definition = definition := by
  have hfields (fields : List Field) : fields.filter (FieldFilter.all.keeps ·.name) = fields :=
    List.filter_eq_self.2 fun _ _ => rfl
  cases definition with
  | type type =>
    obtain ⟨position, description, name, directives, body⟩ := type
    cases body <;> simp [restrict, FieldFilter.applyTo, hfields]
  | schema | extension | directive => rfl

theorem isWhole_single (file : SchemaFile) : isWhole [file] 0 = true :=
  isWhole_iff.2 ⟨Nat.zero_lt_one, .refl⟩

theorem wholeSelection_single (file : SchemaFile) : wholeSelection [file] =
    file.definitions.zipIdx.filterMap fun (definition, index) =>
      if isSelectable definition then some ⟨0, index, .all⟩ else none := by
  simp [wholeSelection, isWhole_single]

/-- Everything that a name could be about is asked for. -/
theorem referredTypes_single (file : SchemaFile) : referredTypes [file] (askedFor [file]) = [] := by
  refine List.eq_nil_iff_forall_not_mem.2 fun s hs => ?_
  obtain ⟨-, name, hadded, hfirst⟩ := mem_referredTypes.1 hs
  refine hadded.not_asked ⟨s.file, s.definition, .inl ⟨?_, ?_⟩, hfirst.1.1⟩
  · have hlt := hfirst.1.1.lt_length
    obtain h : s.file = 0 := by simpa using hlt
    rw [h]
    exact isWhole_iff.1 (isWhole_single file)
  · obtain ⟨type, htype, -⟩ := hfirst.1.1
    obtain ⟨definition, hd, ht⟩ := Option.bind_eq_some_iff.1 htype
    refine ⟨definition, hd, ?_⟩
    cases definition with
    | type => rfl
    | schema | extension | directive => cases ht

theorem select_single {file : SchemaFile} (h : file.imports = []) : select [file] = .ok (wholeSelection [file]) := by
  have hnamed : namedTypes [file] = [] := by simp [namedTypes, h]
  have hasked : askedFor [file] = wholeSelection [file] := by simp [askedFor, hnamed]
  have hsorted : (wholeSelection [file]).Pairwise fun a b => a.before b = true := by
    rw [wholeSelection_single]
    refine List.pairwise_filterMap.2 ((zipIdx_pairwise file.definitions 0).imp ?_)
    rintro ⟨a, i⟩ ⟨b, j⟩ hlt s hs t ht
    dsimp only at hlt hs ht
    split at hs <;> cases hs
    split at ht <;> cases ht
    exact before_iff.2 (.inr ⟨rfl, Nat.le_of_lt hlt⟩)
  have hselect : select [file] = .ok ((askedFor [file] ++ referredTypes [file] (askedFor [file])).mergeSort Selected.before) := by
    simp [select, askedFor, hnamed]
  rw [hselect, referredTypes_single, List.append_nil, hasked, List.mergeSort_of_pairwise hsorted]

theorem emitted_single (file : SchemaFile) : emitted [file] (wholeSelection [file]) = merged file.definitions := by
  have hdefinitions : ((wholeSelection [file]).filterMap fun s => (s.definition? [file]).map (s.file, ·)) =
      (file.definitions.filter isSelectable).map ((0 : Nat), ·) := by
    rw [wholeSelection_single, List.filterMap_filterMap]
    conv_rhs => rw [← List.zipIdx_map_fst 0 file.definitions, List.filter_map, List.map_map]
    rw [← List.filterMap_eq_map, List.filterMap_filter]
    refine List.filterMap_congr fun ⟨definition, index⟩ hm => ?_
    have hat := List.mem_zipIdx_iff_getElem?.1 hm
    dsimp only
    by_cases hs : isSelectable definition = true
    · simp [hs, Selected.definition?, hat, restrict_all]
    · simp [hs]
  rw [emitted, hdefinitions, merged]

theorem merged_eq_nil_iff {document : List Definition} :
    merged document = [] ↔ ∀ definition ∈ document, isSelectable definition ≠ true := by
  rw [merged, List.map_eq_nil_iff, mergeRoots_eq_nil_iff, List.map_eq_nil_iff, List.filter_eq_nil_iff]

/-- A file as it is loaded: what a text without definitions says is not asked. -/
def singleFile (path : Path) (location : Location) (text : String) (document : List Definition) : SchemaFile :=
  ⟨path, location, text, if holdsDefinitions text then document else [], []⟩

theorem select_singleFile (path : Path) (location : Location) (text : String) (document : List Definition) :
    select [singleFile path location text document] = .ok (wholeSelection [singleFile path location text document]) :=
  select_single rfl

variable {tree : FileTree} {path : Path} {location : Location} {text : String} {document : List Definition}

theorem loadFiles_single (hread : tree.readAt path = .ok (location, text)) (hdirectives : directives text = [])
    (hparse : Document.parse text = .ok document) :
    loadFiles tree path = .ok ⟨[singleFile path location text document], []⟩ := by
  by_cases hholds : holdsDefinitions text = true
  · simp [loadFiles, hread, Loader.addFile, hdirectives, hholds, hparse, Loader.empty, Loader.follow, singleFile]
  · simp [loadFiles, hread, Loader.addFile, hdirectives, hholds, Loader.empty, Loader.follow, singleFile]

theorem load_singleFile (hread : tree.readAt path = .ok (location, text)) (hdirectives : directives text = [])
    (hparse : Document.parse text = .ok document) :
    load tree path = .ok (Source.combine [singleFile path location text document]
      (wholeSelection [singleFile path location text document])) := by
  simp [load, loadFiles_single hread hdirectives hparse, select_singleFile path location text document, bind,
    Except.bind, pure, Except.pure]

/-- The combined document of a single file is read again and links as its merged definitions do, or is not read. -/
theorem parse_singleFile (hread : tree.readAt path = .ok (location, text)) (hdirectives : directives text = [])
    (hparse : Document.parse text = .ok document) : ∃ source, load tree path = .ok source ∧
      ((holdsDefinitions text = true ∧ (∃ definition ∈ document, isSelectable definition = true) ∧
          ∀ definition ∈ merged document, definition.Rereadable) ∧
          (Schema.parse source.contents).mapError LinkError.unplaced =
            (Schema.ofDocument (merged document)).mapError LinkError.unplaced ∨
        ¬ (holdsDefinitions text = true ∧ (∃ definition ∈ document, isSelectable definition = true) ∧
          ∀ definition ∈ merged document, definition.Rereadable) ∧
          ∃ error, Schema.parse source.contents = .error (.parse error)) := by
  refine ⟨_, load_singleFile hread hdirectives hparse, ?_⟩
  have hemittable := emittable_emitted (select_singleFile path location text document)
    (parsed_loadFiles (loadFiles_single hread hdirectives hparse))
  have hparsed := parse_combine hemittable
  rw [emitted_single, ne_eq, merged_eq_nil_iff] at hparsed
  by_cases hholds : holdsDefinitions text = true
  · simpa [singleFile, hholds] using hparsed
  · simpa [singleFile, hholds] using hparsed

end Import

/-! ## Merging and linking -/

variable {document : List Definition} {name : String} {position : Position} {error : LinkError}

namespace Schema

theorem ofDocument_of_firstClash (h : FirstClash document error) : ofDocument document = .error error := by
  rw [ofDocument, Declarations.eq_error_iff.2 h]
  rfl

theorem checkedRoot_ne_duplicate (kinds : Kinds) (schema : SchemaDefinition) (operation : Operation) :
    checkedRoot kinds schema operation ≠ .error (.duplicateType name position) := by
  unfold checkedRoot
  split
  · simp
  · split <;> simp

theorem ofDeclarations_ne_duplicate (declared : Declarations) :
    ofDeclarations declared ≠ .error (.duplicateType name position) := by
  refine bind_ne_error ?_ fun roots => by simp [pure, Except.pure]
  cases declared.schema with
  | none => simp [rootsOf]
  | some schema =>
    exact bind_ne_error (checkedRoot_ne_duplicate _ _ _) fun _ => bind_ne_error (checkedRoot_ne_duplicate _ _ _) fun _ =>
      bind_ne_error (checkedRoot_ne_duplicate _ _ _) fun _ => by simp [pure, Except.pure]

theorem firstClash_of_ofDocument (h : ofDocument document = .error (.duplicateType name position)) :
    FirstClash document (.duplicateType name position) := by
  rw [ofDocument] at h
  cases hd : Declarations.ofDocument document with
  | error error =>
    rw [hd] at h
    cases h
    exact Declarations.eq_error_iff.1 hd
  | ok declared =>
    rw [hd] at h
    exact absurd h (ofDeclarations_ne_duplicate declared)

end Schema

theorem firstClash_filter : FirstClash (document.filter Import.isSelectable) error ↔ FirstClash document error := by
  rw [← Declarations.eq_error_iff, ← Declarations.eq_error_iff, Declarations.ofDocument, Declarations.ofDocument,
    Declarations.foldlM_add_filter]

/-- Merging changes what becomes of a document only where it takes away the first clash of names. -/
theorem ofDocument_merged (h : ∀ name position, FirstClash document (.duplicateType name position) →
      ∃ position, FirstClash (Import.merged document) (.duplicateType name position)) :
    (Schema.ofDocument (Import.merged document)).mapError LinkError.unplaced =
      (Schema.ofDocument document).mapError LinkError.unplaced := by
  have hkept : ((document.filter Import.isSelectable).map ((0 : Nat), ·)).map (·.2) =
      document.filter Import.isSelectable := by
    simp
  rw [← Schema.ofDocument_filter document]
  cases hd : Declarations.ofDocument (document.filter Import.isSelectable) with
  | ok declared =>
    have hunclashed := Declarations.exists_ok_iff.1 ⟨declared, hd⟩
    rw [← hkept] at hunclashed
    rw [Import.merged, Import.mergeRoots_eq_self (Import.objectsDiffer_of_unclashed hunclashed), hkept]
  | error error =>
    have hclash := Declarations.eq_error_iff.1 hd
    rw [Schema.ofDocument_of_firstClash hclash]
    obtain ⟨_, _, _, _, _, hclashes⟩ := id hclash
    rcases hclashes.isDuplicate with ⟨position, rfl⟩ | ⟨name, position, rfl⟩
    · rw [← hkept] at hclash
      rw [Import.merged, Schema.ofDocument_of_firstClash (Import.firstClash_mergeRoots hclash)]
    · obtain ⟨position', hmerged⟩ := h name position (firstClash_filter.1 hclash)
      rw [Schema.ofDocument_of_firstClash hmerged]
      rfl

/-! ## Compiling -/

/-- What becomes of a text: its fragments, or an error without the place where it is reported. -/
def outcome (text : String) (dialect : Dialect) : Except LinkError String :=
  ((compile text dialect).map (·.contents)).mapError LinkError.unplaced

theorem outcome_eq (text : String) (dialect : Dialect) : outcome text dialect =
    ((Schema.parse text).mapError LinkError.unplaced).map fun schema => (FragmentSet.ofSchema schema).render dialect := by
  unfold outcome compile
  cases Schema.parse text <;> rfl

theorem unplaced_eq_parse {error : ParseError} {result : Except LinkError Schema}
    (h : result.mapError LinkError.unplaced = .error (.parse error)) : result = .error (.parse error) := by
  cases result with
  | ok schema => cases h
  | error error => cases error <;> cases h; rfl

theorem unplaced_eq_duplicateType {result : Except LinkError Schema}
    (h : result.mapError LinkError.unplaced = .error (.duplicateType name position)) :
    ∃ position, result = .error (.duplicateType name position) := by
  cases result with
  | ok schema => cases h
  | error error => cases error <;> cases h; exact ⟨_, rfl⟩

theorem map_eq_error {ε α β : Type} {result : Except ε α} {f : α → β} {error : ε} (h : result.map f = .error error) :
    result = .error error := by
  cases result with
  | ok value => cases h
  | error other => cases h; rfl

/-- A schema file without imports loads. Compiling the combined document comes to the same as compiling the text
of the file, in each dialect, exactly if the file holds definitions for the line reader and a schema or type
definition for the parser, what is combined is read again, and a type that is defined twice is still the first
clash when roots are merged. -/
theorem compile_single_iff {tree : FileTree} {path : Path} {location : Location} {text : String}
    (hread : tree.readAt path = .ok (location, text)) (hdirectives : Import.directives text = [])
    (hparse : Document.parse text = .ok document) : ∃ source, Import.load tree path = .ok source ∧
      ((∀ dialect, outcome source.contents dialect = outcome text dialect) ↔
        Import.holdsDefinitions text = true ∧ (∃ definition ∈ document, Import.isSelectable definition = true) ∧
        (∀ definition ∈ Import.merged document, definition.Rereadable) ∧
        ∀ name position, FirstClash document (.duplicateType name position) →
          ∃ position, FirstClash (Import.merged document) (.duplicateType name position)) := by
  obtain ⟨source, hload, hcombined⟩ := Import.parse_singleFile hread hdirectives hparse
  refine ⟨source, hload, ?_⟩
  have htext : Schema.parse text = Schema.ofDocument document := Schema.parse_of_document hparse
  rcases hcombined with ⟨⟨hholds, hsome, hall⟩, hsame⟩ | ⟨hrefused, error, herror⟩
  · constructor
    · intro houtcome
      refine ⟨hholds, hsome, hall, fun name position hclash => ?_⟩
      have heq := houtcome .graphql
      rw [outcome_eq, outcome_eq, hsame, htext, Schema.ofDocument_of_firstClash hclash] at heq
      obtain ⟨position', hmerged⟩ := unplaced_eq_duplicateType (map_eq_error heq)
      exact ⟨position', Schema.firstClash_of_ofDocument hmerged⟩
    · rintro ⟨-, -, -, hclash⟩ dialect
      rw [outcome_eq, outcome_eq, hsame, htext, ofDocument_merged hclash]
  · -- the combined document is not read, but the text of the file is
    constructor
    · intro houtcome
      have heq := houtcome .graphql
      rw [outcome_eq, outcome_eq, herror, htext] at heq
      exact absurd (unplaced_eq_parse (map_eq_error heq.symm)) (Schema.ofDocument_ne_parse error)
    · rintro ⟨hholds, hsome, hall, -⟩
      exact absurd ⟨hholds, hsome, hall⟩ hrefused

def plainText : String := "directive @note on OBJECT\ntype Query @note \x7b book: Book \x7d\ntype Book \x7b id: ID \x7d\n"

/-- The directive definition is left out of the combined document and changes nothing. -/
theorem plainText_compiles_alike : ∃ source, Import.load (Import.fileTree plainText) ⟨"a"⟩ = .ok source ∧
    ∀ dialect, outcome source.contents dialect = outcome plainText dialect := by
  have hread : (Import.fileTree plainText).readAt ⟨"a"⟩ = .ok (["w", "a"], plainText) := by cbv
  have hrun : (Document.parse plainText).toOption.any (fun document => document.any Import.isSelectable &&
      decide (∀ definition ∈ Import.merged document, definition.Rereadable) &&
      (Declarations.ofDocument document).toOption.isSome) = true := by decide +kernel
  obtain ⟨document, hparse, hchecks⟩ := exists_ok_of_any hrun
  simp only [Bool.and_eq_true, List.any_eq_true, decide_eq_true_eq] at hchecks
  obtain ⟨⟨hsome, hall⟩, hdeclared⟩ := hchecks
  obtain ⟨source, hload, hiff⟩ := compile_single_iff hread (by decide +kernel) hparse
  refine ⟨source, hload, hiff.2 ⟨by decide +kernel, hsome, hall, fun name position hclash => ?_⟩⟩
  rw [Declarations.eq_error_iff.2 hclash] at hdeclared
  cases hdeclared

def twiceText : String := "type Query \x7b a: Int \x7d\ntype Query \x7b b: Int \x7d\n"

/-- Roots are also merged where one file defines them twice, and the duplicate is not reported. -/
theorem twiceText_compiles_merged : ∃ source, Import.load (Import.fileTree twiceText) ⟨"a"⟩ = .ok source ∧
    outcome twiceText .graphql = .error (.duplicateType "Query" ⟨0, 0⟩) ∧
    ∃ contents, outcome source.contents .graphql = .ok contents := by
  have hread : (Import.fileTree twiceText).readAt ⟨"a"⟩ = .ok (["w", "a"], twiceText) := by cbv
  have hrun : (Document.parse twiceText).toOption.any (fun document => document.any Import.isSelectable &&
      decide (∀ definition ∈ Import.merged document, definition.Rereadable) &&
      (Schema.ofDocument (Import.merged document)).toOption.isSome &&
      decide (((Schema.ofDocument document).map fun _ => ()).mapError LinkError.unplaced =
        .error (.duplicateType "Query" ⟨0, 0⟩))) = true := by decide +kernel
  obtain ⟨document, hparse, hchecks⟩ := exists_ok_of_any hrun
  simp only [Bool.and_eq_true, List.any_eq_true, decide_eq_true_eq] at hchecks
  obtain ⟨⟨⟨hsome, hall⟩, hlinked⟩, hduplicate⟩ := hchecks
  obtain ⟨source, hload, ⟨-, hsame⟩ | ⟨hrefused, -⟩⟩ := Import.parse_singleFile hread (by decide +kernel) hparse
  · refine ⟨source, hload, ?_, ?_⟩
    · rw [outcome_eq, Schema.parse_of_document hparse]
      cases hd : Schema.ofDocument document with
      | ok schema => rw [hd] at hduplicate; cases hduplicate
      | error error => rw [hd] at hduplicate; exact congrArg _ (Except.error.inj hduplicate)
    · rw [outcome_eq, hsame]
      cases hm : Schema.ofDocument (Import.merged document) with
      | ok schema => exact ⟨_, rfl⟩
      | error error => rw [hm] at hlinked; cases hlinked
  · exact absurd ⟨by decide +kernel, hsome, hall⟩ hrefused

end SchemaFragments
