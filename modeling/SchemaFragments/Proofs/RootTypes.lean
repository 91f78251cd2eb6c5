import SchemaFragments.Proofs.BareDocuments
import SchemaFragments.Proofs.Clashes
/-!
# Root types of combined documents

A schema definition that is selected names root types, and these are not added for that: a root type is there
only if it is asked for or a selected type refers to it. `roots_combined_iff`: exactly the other ones, as far as
some file defines them, are what the combined document lacks.
-/

namespace SchemaFragments

open Document

namespace Schema

variable {document : List Definition} {operation : Operation} {root : String} {position : Position}

theorem checkedRoot_eq_unknown {kinds : Kinds} {schema : SchemaDefinition} {asked : Operation}
    (h : checkedRoot kinds schema asked = .error (.unknownRoot operation root position)) :
    schema.root operation = some root ∧ kinds.lookup root = none := by
  unfold checkedRoot at h
  split at h
  · cases h
  · rename_i name hname
    split at h <;> cases h
    rename_i hnone
    exact ⟨hname, hnone⟩

theorem rootsOf_eq_unknown {kinds : Kinds} {schema? : Option SchemaDefinition}
    (h : rootsOf kinds schema? = .error (.unknownRoot operation root position)) :
    ∃ schema, schema? = some schema ∧ schema.root operation = some root ∧ kinds.lookup root = none := by
  cases schema? with
  | none => cases h
  | some schema =>
    refine ⟨schema, rfl, ?_⟩
    by_contra hne
    have hchecked (asked : Operation) : checkedRoot kinds schema asked ≠ .error (.unknownRoot operation root position) :=
      fun hc => hne (checkedRoot_eq_unknown hc)
    refine absurd h (bind_ne_error (hchecked _) fun _ => bind_ne_error (hchecked _) fun _ =>
      bind_ne_error (hchecked _) fun _ => by simp [pure, Except.pure])

/-- The only schema definition of a document without clashes. -/
theorem findSome?_of_unclashed {schema : SchemaDefinition} (h : Unclashed document) (hs : .schema schema ∈ document) :
    document.findSome? Definition.schema? = some schema := by
  obtain ⟨before, after, rfl⟩ := List.append_of_mem hs
  have hnone : before.findSome? Definition.schema? = none := by
    refine List.findSome?_eq_none_iff.2 fun other ho => ?_
    cases other with
    | schema other => exact absurd (.schema ho) (h before _ after _ rfl)
    | type | extension | directive => rfl
  rw [List.findSome?_append, hnone]
  rfl

/-- A root is unknown only if a schema definition names it and no type has its name. -/
theorem ofDocument_eq_unknown (h : ofDocument document = .error (.unknownRoot operation root position)) :
    (∃ schema, .schema schema ∈ document ∧ schema.root operation = some root) ∧ root ∉ builtInScalars ∧
      root ∉ Import.typeNames document := by
  rw [ofDocument] at h
  cases hd : Declarations.ofDocument document with
  | error error =>
    rw [hd] at h
    cases h
    obtain ⟨_, _, _, _, _, hclash⟩ := Declarations.eq_error_iff.1 hd
    rcases hclash.isDuplicate with ⟨_, he⟩ | ⟨_, _, he⟩ <;> cases he
  | ok declared =>
    rw [hd] at h
    have hroots : rootsOf declared.kinds declared.schema = .error (.unknownRoot operation root position) := by
      cases hr : rootsOf declared.kinds declared.schema with
      | error error => simpa [ofDeclarations, hr, bind, Except.bind] using h
      | ok roots => simp [ofDeclarations, hr, bind, Except.bind, pure, Except.pure] at h
    obtain ⟨schema, hschema, hroot, hlookup⟩ := rootsOf_eq_unknown hroots
    rw [Declarations.ofDocument_schema hd] at hschema
    obtain ⟨definition, hmem, hs⟩ := List.exists_of_findSome?_eq_some hschema
    refine ⟨⟨schema, ?_, hroot⟩, ?_⟩
    · cases definition <;> cases hs
      exact hmem
    · rw [← not_or, ← Declarations.isSome_lookup_kinds_iff hd, hlookup]
      exact Bool.false_ne_true

/-- The roots of a document that links are types of it. -/
theorem mem_typeNames_of_ofDocument {linked : Schema} {schema : SchemaDefinition} (h : ofDocument document = .ok linked)
    (hs : .schema schema ∈ document) (hroot : schema.root operation = some root) : root ∈ Import.typeNames document := by
  obtain ⟨declared, hd, h⟩ := exists_ok_of_bind h
  obtain ⟨roots, hr, -⟩ := ofDeclarations_eq_ok h
  rw [Declarations.ofDocument_schema hd, findSome?_of_unclashed (Declarations.exists_ok_iff.1 ⟨declared, hd⟩) hs] at hr
  obtain ⟨query, hquery, hr⟩ := exists_ok_of_bind hr
  obtain ⟨mutation, hmutation, hr⟩ := exists_ok_of_bind hr
  obtain ⟨subscription, hsubscription, -⟩ := exists_ok_of_bind hr
  obtain ⟨checked, hchecked⟩ : ∃ checked, checkedRoot declared.kinds schema operation = .ok checked := by
    cases operation with
    | query => exact ⟨_, hquery⟩
    | mutation => exact ⟨_, hmutation⟩
    | subscription => exact ⟨_, hsubscription⟩
  have hkind : declared.kinds.lookup root = some .object := by
    rw [checkedRoot, hroot] at hchecked
    dsimp only at hchecked
    split at hchecked
    · assumption
    · cases hchecked
    · cases hchecked
  obtain ⟨type, htype, rfl, -⟩ := Declarations.exists_of_lookup hkind (by decide)
  rw [(Declarations.ofDocument_ok hd).1] at htype
  obtain ⟨definition, hmem, ht⟩ := Declarations.mem_typesOf htype
  exact List.mem_filterMap.2 ⟨definition, hmem, by rw [ht]; rfl⟩

end Schema

theorem exists_unknown_of_unplaced {α : Type} {result : Except LinkError α} {operation : Operation} {root : String}
    {position : Position} (h : result.mapError LinkError.unplaced = .error (.unknownRoot operation root position)) :
    ∃ position, result = .error (.unknownRoot operation root position) := by
  cases result with
  | ok value => cases h
  | error error =>
    cases error <;> cases h
    exact ⟨_, rfl⟩

/-! ## Named roots -/

namespace Import

variable {files : List SchemaFile} {selected : List Selected} {name root : String} {operation : Operation}

/-- A selected schema definition names the root type of an operation. -/
def NamesRoot (files : List SchemaFile) (selected : List Selected) (operation : Operation) (root : String) : Prop :=
  ∃ s ∈ selected, ∃ schema, s.definition? files = some (.schema schema) ∧ schema.root operation = some root

/-- A selected type refers to a name with what is left of it. -/
def ReferredTo (files : List SchemaFile) (selected : List Selected) (name : String) : Prop :=
  ∃ s ∈ selected, ∃ type, s.type? files = some type ∧ name ∈ type.references

theorem type?_eq_some {s : Selected} {type : TypeDefinition} :
    s.type? files = some type ↔ s.definition? files = some (.type type) := by
  rw [Selected.type?]
  cases s.definition? files with
  | none => simp
  | some definition => cases definition <;> simp [Definition.type?]

theorem mem_selected_definitions {definition : Definition} :
    definition ∈ (selected.filterMap fun s => (s.definition? files).map (s.file, ·)).map (·.2) ↔
      ∃ s ∈ selected, s.definition? files = some definition := by
  simp only [List.mem_map, List.mem_filterMap, Option.map_eq_some_iff]
  constructor
  · rintro ⟨_, ⟨s, hs, d, hd, rfl⟩, rfl⟩
    exact ⟨s, hs, hd⟩
  · rintro ⟨s, hs, hd⟩
    exact ⟨_, ⟨s, hs, _, hd, rfl⟩, rfl⟩

theorem mem_typeNames_emitted : name ∈ typeNames (emitted files selected) ↔
    ∃ s ∈ selected, ∃ type, s.type? files = some type ∧ type.name = name := by
  rw [emitted, mem_typeNames_mergeRoots, mem_typeNames]
  simp only [mem_selected_definitions, type?_eq_some]
  constructor
  · rintro ⟨type, ⟨s, hs, ht⟩, hn⟩
    exact ⟨s, hs, type, ht, hn⟩
  · rintro ⟨s, hs, type, ht, hn⟩
    exact ⟨type, ⟨s, hs, ht⟩, hn⟩

theorem namesRoot_iff : NamesRoot files selected operation root ↔
    ∃ schema, .schema schema ∈ emitted files selected ∧ schema.root operation = some root := by
  simp only [emitted, schema_mem_mergeRoots, mem_selected_definitions, NamesRoot]
  constructor
  · rintro ⟨s, hs, schema, hd, hroot⟩
    exact ⟨schema, ⟨s, hs, hd⟩, hroot⟩
  · rintro ⟨schema, ⟨s, hs, hd⟩, hroot⟩
    exact ⟨s, hs, schema, hd, hroot⟩

/-- What is added because of a reference is referred to by what is selected. -/
theorem referredTo_of_added (h : Added files name) :
    name ∉ builtInScalars ∧ ReferredTo files (askedFor files ++ referredTypes files (askedFor files)) name := by
  cases h with
  | start hs hk _ =>
    obtain ⟨s, hs, type, ht, hr⟩ := mem_askedTypes_references.1 hs
    exact ⟨(mem_definedNames.1 hk).2, s, List.mem_append_left _ hs, _, type?_eq_some_iff.2 ⟨type, ht, rfl⟩,
      mem_references_applyTo.2 hr⟩
  | step hbefore hn hk _ =>
    obtain ⟨file, index, type, hfirst, ht, hr⟩ := mem_referencesOfName.1 hn
    refine ⟨(mem_definedNames.1 hk).2, ⟨file, index, .all⟩, ?_, _, type?_eq_some_iff.2 ⟨type, ht, rfl⟩, ?_⟩
    · exact List.mem_append_right _ (mem_referredTypes.2 ⟨rfl, _, hbefore, hfirst⟩)
    · exact mem_references_applyTo.2 (hr.mono fun _ _ => keeps_all)

/-- A name that some file defines is the name of a selected type exactly if it is asked for, or a selected type
refers to it and it is not built in. -/
theorem exists_selected_iff (h : select files = .ok selected) (hdefined : ∃ file index, DefinesAt files name file index) :
    (∃ s ∈ selected, ∃ type, s.type? files = some type ∧ type.name = name) ↔
      AskedName files name ∨ name ∉ builtInScalars ∧ ReferredTo files selected name := by
  have hperm : ∀ s, s ∈ selected ↔ s ∈ askedFor files ++ referredTypes files (askedFor files) := by
    rw [select_eq_ok h]
    simp
  constructor
  · rintro ⟨s, hs, type, ht, rfl⟩
    obtain ⟨whole, hwhole, rfl⟩ := type?_eq_some_iff.1 ht
    rcases List.mem_append.1 ((hperm s).1 hs) with hs | hs
    · exact .inl ⟨s.file, s.definition, holds_askedFor.1 ⟨s, hs, rfl, rfl⟩, whole, hwhole, rfl⟩
    · obtain ⟨-, added, hadded, hfirst⟩ := mem_referredTypes.1 hs
      obtain rfl : added = whole.name := hfirst.1.1.name_eq ⟨whole, hwhole, rfl⟩
      obtain ⟨hnew, t, ht, hrefers⟩ := referredTo_of_added hadded
      exact .inr ⟨hnew, t, (hperm t).2 ht, hrefers⟩
  · rintro (hasked | ⟨hnew, s, hs, type, ht, hrefers⟩)
    · obtain ⟨file, index, hasked, type, ht, rfl⟩ := hasked
      obtain ⟨s, hs, rfl, rfl⟩ := holds_askedFor.2 hasked
      exact ⟨s, (hperm s).2 (List.mem_append_left _ hs), _, type?_eq_some_iff.2 ⟨type, ht, rfl⟩, rfl⟩
    · rcases reference_is_selected ((hperm s).1 hs) ht hrefers with hb | ⟨t, hselected, hnamed⟩ | hnone
      · exact absurd hb hnew
      · exact ⟨t, (hperm t).2 hselected, hnamed⟩
      · obtain ⟨file, index, hd⟩ := hdefined
        exact absurd hd (hnone file index)

/-- A root type that a selected schema definition names and that some loaded file defines is combined exactly if
it is asked for, or a selected type refers to it and it is not built in. The other ones are just those that are
reported as unknown although a file defines them, and with one of them nothing links. -/
theorem roots_combined_iff {tree : FileTree} {path : Path} {source : Source} (h : load tree path = .ok source) :
    ∃ selected, select source.files = .ok selected ∧
      (∀ operation root, NamesRoot source.files selected operation root →
        (∃ file index, DefinesAt source.files root file index) →
        (root ∈ typeNames (emitted source.files selected) ↔
          AskedName source.files root ∨ root ∉ builtInScalars ∧ ReferredTo source.files selected root)) ∧
      (∀ operation root position, Schema.parse source.contents = .error (.unknownRoot operation root position) →
        NamesRoot source.files selected operation root ∧ root ∉ typeNames (emitted source.files selected)) ∧
      ∀ operation root, NamesRoot source.files selected operation root →
        root ∉ typeNames (emitted source.files selected) → ∀ schema, Schema.parse source.contents ≠ .ok schema := by
  obtain ⟨loader, selected, hload, hselect, rfl⟩ := load_eq_ok h
  rw [files_combine]
  have hparse := parse_combine (emittable_emitted hselect (parsed_loadFiles hload))
  refine ⟨selected, hselect, fun operation root _ hdefined => ?_, fun operation root position hunknown => ?_,
    fun operation root hnames hlacks schema hok => ?_⟩
  · rw [mem_typeNames_emitted]
    exact exists_selected_iff hselect hdefined
  · rcases hparse with ⟨-, hsame⟩ | ⟨-, error, herror⟩
    · -- the error is that of the emitted definitions, at another place
      rw [hunknown] at hsame
      obtain ⟨_, hlinked⟩ := exists_unknown_of_unplaced hsame.symm
      obtain ⟨hnames, -, hlacks⟩ := Schema.ofDocument_eq_unknown hlinked
      exact ⟨namesRoot_iff.2 hnames, hlacks⟩
    · rw [hunknown] at herror
      cases herror
  · rcases hparse with ⟨-, hsame⟩ | ⟨-, error, herror⟩
    · rw [hok] at hsame
      obtain ⟨definition, hmem, hroot⟩ := namesRoot_iff.1 hnames
      cases hlinked : Schema.ofDocument (emitted loader.files selected) with
      | ok linked => exact hlacks (Schema.mem_typeNames_of_ofDocument hlinked hmem hroot)
      | error error => rw [hlinked] at hsame; cases hsame
    · rw [hok] at herror
      cases herror

def namingText (names : String) : String := "# import " ++ names ++ " from \"b\"\nschema \x7b query: Root \x7d\n"

/-- A schema definition, and its root type in a file of which some types are imported by name. -/
def namingTree (names : String) : FileTree where
  workingDirectory := ["w"]
  entries := [(["w"], .directory), (["w", "a"], .file (some (namingText names))),
    (["w", "b"], .file (some "type Book\ntype Root\n"))]

theorem namesRoot_of_any (h : ((emitted files selected).any fun definition =>
    definition.schema?.any (·.root operation == some root)) = true) : NamesRoot files selected operation root := by
  obtain ⟨definition, hd, hroot⟩ := List.any_eq_true.1 h
  cases definition with
  | schema schema => exact namesRoot_iff.2 ⟨schema, hd, by simpa [Definition.schema?] using hroot⟩
  | type | extension | directive => simp [Definition.schema?] at hroot

/-- The root type is asked for. -/
theorem namingTree_root_combined : ∃ source selected, load (namingTree "Root") ⟨"a"⟩ = .ok source ∧
    select source.files = .ok selected ∧ NamesRoot source.files selected .query "Root" ∧
    (∃ file index, DefinesAt source.files "Root" file index) ∧ "Root" ∈ typeNames (emitted source.files selected) ∧
    (AskedName source.files "Root" ∨ "Root" ∉ builtInScalars ∧ ReferredTo source.files selected "Root") := by
  have hread : (namingTree "Root").readAt ⟨"a"⟩ = .ok (["w", "a"], namingText "Root") := by cbv
  have hread' : (namingTree "Root").readAt ⟨"b"⟩ = .ok (["w", "b"], "type Book\ntype Root\n") := by cbv
  obtain ⟨files, selected, hload, hselect, hp⟩ := load_pair (p := fun files selected =>
    (emitted files selected).any (fun definition => definition.schema?.any (·.root .query == some "Root")) &&
      decide ("Root" ∈ typeNames (emitted files selected)))
    1 ⟨"b", 21, .types [("Root", .all)]⟩ hread (by decide +kernel) (by decide +kernel) hread'
    (by decide +kernel) (by decide) (by decide +kernel) (by decide +kernel) (by cbv)
  obtain ⟨hnames, hemitted⟩ := Bool.and_eq_true_iff.1 hp
  have hnames := namesRoot_of_any hnames
  have hemitted := of_decide_eq_true hemitted
  obtain ⟨s, -, type, htype, hname⟩ := mem_typeNames_emitted.1 hemitted
  obtain ⟨whole, hwhole, rfl⟩ := type?_eq_some_iff.1 htype
  have hdefined : ∃ file index, DefinesAt files "Root" file index := ⟨_, _, whole, hwhole, hname⟩
  obtain ⟨selected', hselect', hcombined, -⟩ := roots_combined_iff hload
  rw [files_combine] at hselect' hcombined
  obtain rfl : selected' = selected := Except.ok.inj (hselect'.symm.trans hselect)
  refine ⟨_, selected', hload, ?_⟩
  rw [files_combine]
  exact ⟨hselect, hnames, hdefined, hemitted, (hcombined _ _ hnames hdefined).1 hemitted⟩

/-- Only another type of the file is asked for, and the root type that the schema definition names is left out. -/
theorem namingTree_root_unknown : ∃ source selected, load (namingTree "Book") ⟨"a"⟩ = .ok source ∧
    select source.files = .ok selected ∧ NamesRoot source.files selected .query "Root" ∧
    (∃ file ∈ source.files, "Root" ∈ typeNames file.definitions) ∧
    "Root" ∉ typeNames (emitted source.files selected) ∧
    ∃ position, Schema.parse source.contents = .error (.unknownRoot .query "Root" position) := by
  have hread : (namingTree "Book").readAt ⟨"a"⟩ = .ok (["w", "a"], namingText "Book") := by cbv
  have hread' : (namingTree "Book").readAt ⟨"b"⟩ = .ok (["w", "b"], "type Book\ntype Root\n") := by cbv
  obtain ⟨files, selected, hload, hselect, hp⟩ := load_pair (p := fun files selected =>
    (emitted files selected).any (fun definition => definition.schema?.any (·.root .query == some "Root")) &&
      (files.any fun file => decide ("Root" ∈ typeNames file.definitions)) &&
      decide (∀ definition ∈ emitted files selected, definition.Rereadable) &&
      (Schema.ofDocument (emitted files selected)).mapError LinkError.unplaced ==
        .error (.unknownRoot .query "Root" ⟨0, 0⟩))
    1 ⟨"b", 21, .types [("Book", .all)]⟩ hread (by decide +kernel) (by decide +kernel) hread'
    (by decide +kernel) (by decide) (by decide +kernel) (by decide +kernel) (by cbv)
  simp only [Bool.and_eq_true, List.any_eq_true (l := files), decide_eq_true_eq, beq_iff_eq] at hp
  obtain ⟨⟨⟨hnames, hdefined⟩, hreread⟩, hlinked⟩ := hp
  obtain ⟨position, hlinked⟩ := exists_unknown_of_unplaced hlinked
  refine ⟨_, selected, hload, ?_⟩
  obtain ⟨loader, selected', hloader, hselect', hsource⟩ := load_eq_ok hload
  obtain rfl : loader.files = files := by simpa only [files_combine] using (congrArg Source.files hsource).symm
  rw [files_combine]
  have hne : emitted loader.files selected ≠ [] := by
    intro hnil
    rw [hnil] at hnames
    cases hnames
  refine ⟨hselect, namesRoot_of_any hnames, hdefined, (Schema.ofDocument_eq_unknown hlinked).2.2, ?_⟩
  rcases parse_combine (emittable_emitted hselect (parsed_loadFiles hloader)) with ⟨-, hsame⟩ | ⟨hrefused, -⟩
  · rw [hlinked] at hsame
    exact exists_unknown_of_unplaced hsame
  · exact absurd ⟨hne, hreread⟩ hrefused

end Import

end SchemaFragments
