import SchemaFragments.Proofs.NameLists
import SchemaFragments.Proofs.Placeless
/-!
# Alike files

Files are alike when their definitions differ in positions only and their directives ask for the same, in whatever
order and groups. A selection from some files is possible from alike ones, and the combined texts are the same:
`combine_alike`.
-/

namespace SchemaFragments.Import

open Document

/-! ## What the directives of a file ask for -/

namespace SchemaFile

/-- A file has a directive of a class for another one. -/
def Requests (Q : Selection → Prop) (file : SchemaFile) (target : Nat) : Prop :=
  ∃ link ∈ file.imports, Q link.selection ∧ link.target = target

structure Alike (file file' : SchemaFile) : Prop where
  definitions : file.definitions.map Definition.unplaced = file'.definitions.map Definition.unplaced
  requests {Q : Selection → Prop} (hQ : Request Q) (target : Nat) : file.Requests Q target ↔ file'.Requests Q target

theorem Alike.symm {file file' : SchemaFile} (h : file.Alike file') : file'.Alike file :=
  ⟨h.definitions.symm, fun hQ target => (h.requests hQ target).symm⟩

end SchemaFile

/-- Files that are alike, one after the other. -/
def AlikeFiles (files files' : List SchemaFile) : Prop := List.Forall₂ SchemaFile.Alike files files'

namespace AlikeFiles

variable {files files' : List SchemaFile} {file index target other : Nat} {name : String}

theorem symm (h : AlikeFiles files files') : AlikeFiles files' files :=
  h.flip.imp fun _ _ halike => halike.symm

theorem exists_file (h : AlikeFiles files files') {source : SchemaFile} (hs : files[file]? = some source) :
    ∃ source', files'[file]? = some source' ∧ source.Alike source' := by
  have hlt := (List.getElem?_eq_some_iff.1 hs).1
  rw [List.Forall₂.length_eq h] at hlt
  exact ⟨_, List.getElem?_eq_getElem hlt, get_of_forall₂ h hs (List.getElem?_eq_getElem hlt)⟩

/-! ## Ways through the files -/

theorem importsBy (h : AlikeFiles files files') {Q : Selection → Prop} (hQ : Request Q)
    (hi : ImportsBy (Q ·.selection) files index other) : ImportsBy (Q ·.selection) files' index other := by
  obtain ⟨source, hs, link, hl, hq, ht, hlt⟩ := hi
  obtain ⟨source', hs', halike⟩ := h.exists_file hs
  obtain ⟨link', hl', hq', ht'⟩ := (halike.requests hQ other).1 ⟨link, hl, hq, ht⟩
  exact ⟨source', hs', link', hl', hq', ht', List.Forall₂.length_eq h ▸ hlt⟩

theorem reaches (h : AlikeFiles files files') (hr : Reaches files target file) : Reaches files' target file :=
  Relation.ReflTransGen.mono (fun _ _ hi => h.importsBy .anything hi) _ _ hr

theorem reaches_iff (h : AlikeFiles files files') : Reaches files' target file ↔ Reaches files target file :=
  ⟨h.symm.reaches, h.reaches⟩

theorem whole (h : AlikeFiles files files') (hw : Whole files file) : Whole files' file :=
  ⟨List.Forall₂.length_eq h ▸ hw.1, Relation.ReflTransGen.mono (fun _ _ hi => h.importsBy .wholeFile hi) _ _ hw.2⟩

/-! ## Definitions -/

theorem unplaced_definitionAt? (h : AlikeFiles files files') (file index : Nat) :
    (definitionAt? files file index).map Definition.unplaced =
      (definitionAt? files' file index).map Definition.unplaced := by
  unfold definitionAt?
  cases hs : files[file]? with
  | none =>
    rw [List.getElem?_eq_none_iff, List.Forall₂.length_eq h, ← List.getElem?_eq_none_iff] at hs
    rw [hs]
  | some source =>
    obtain ⟨source', hs', halike⟩ := h.exists_file hs
    rw [hs', Option.bind_some, Option.bind_some, ← List.getElem?_map, ← List.getElem?_map, halike.definitions]

theorem type?_unplaced (definition : Definition) :
    definition.unplaced.type? = definition.type?.map TypeDefinition.unplaced := by
  cases definition <;> rfl

theorem exists_typeAt (h : AlikeFiles files files') {type : TypeDefinition} (ht : typeAt? files file index = some type) :
    ∃ type', typeAt? files' file index = some type' ∧ type.unplaced = type'.unplaced := by
  obtain ⟨definition, hd, ht⟩ := Option.bind_eq_some_iff.1 ht
  have hunplaced := h.unplaced_definitionAt? file index
  rw [hd, Option.map_some] at hunplaced
  obtain ⟨definition', hd', he⟩ := Option.map_eq_some_iff.1 hunplaced.symm
  have htype := type?_unplaced definition
  rw [← he, type?_unplaced, ht, Option.map_some] at htype
  obtain ⟨type', ht', hsame⟩ := Option.map_eq_some_iff.1 htype
  exact ⟨type', Option.bind_eq_some_iff.2 ⟨definition', hd', ht'⟩, hsame.symm⟩

theorem inWhole (h : AlikeFiles files files') (hw : InWhole files file index) : InWhole files' file index := by
  obtain ⟨hwhole, definition, hd, hselectable⟩ := hw
  have hunplaced := h.unplaced_definitionAt? file index
  rw [hd, Option.map_some] at hunplaced
  obtain ⟨definition', hd', he⟩ := Option.map_eq_some_iff.1 hunplaced.symm
  refine ⟨h.whole hwhole, definition', hd', ?_⟩
  cases definition <;> cases definition' <;> first | exact hselectable | cases he

theorem definesAt (h : AlikeFiles files files') (hd : DefinesAt files name file index) :
    DefinesAt files' name file index := by
  obtain ⟨type, ht, hname⟩ := hd
  obtain ⟨type', ht', he⟩ := h.exists_typeAt ht
  exact ⟨type', ht', (congrArg TypeDefinition.name he).symm.trans hname⟩

theorem definesAt_iff (h : AlikeFiles files files') : DefinesAt files' name file index ↔ DefinesAt files name file index :=
  ⟨h.symm.definesAt, h.definesAt⟩

theorem firstLoaded (h : AlikeFiles files files') (hf : FirstLoaded files name file index) :
    FirstLoaded files' name file index := by
  simpa only [FirstLoaded, FirstIn, h.definesAt_iff] using hf

theorem firstFrom (h : AlikeFiles files files') (hf : FirstFrom files target name file index) :
    FirstFrom files' target name file index := by
  simpa only [FirstFrom, FirstIn, h.definesAt_iff, h.reaches_iff] using hf

/-! ## The selection -/

theorem exists_named_iff {P : FieldFilter → Prop} : (∃ filter, Named files file index filter ∧ P filter) ↔
    ∃ importer source, Whole files importer ∧ files[importer]? = some source ∧
      ∃ target name, source.Requests (Selection.AsksOf P name) target ∧ FirstFrom files target name file index := by
  constructor
  · rintro ⟨filter, ⟨importer, source, hw, hs, link, hl, types, htypes, name, hm, hfirst⟩, hp⟩
    exact ⟨importer, source, hw, hs, link.target, name, ⟨link, hl, ⟨types, htypes, filter, hm, hp⟩, rfl⟩, hfirst⟩
  · rintro ⟨importer, source, hw, hs, _, name, ⟨link, hl, ⟨types, htypes, filter, hm, hp⟩, rfl⟩, hfirst⟩
    exact ⟨filter, ⟨importer, source, hw, hs, link, hl, types, htypes, name, hm, hfirst⟩, hp⟩

theorem exists_named (h : AlikeFiles files files') {P : FieldFilter → Prop} (hP : Joins P)
    (hn : ∃ filter, Named files file index filter ∧ P filter) : ∃ filter, Named files' file index filter ∧ P filter := by
  obtain ⟨importer, source, hw, hs, target, name, hrequest, hfirst⟩ := exists_named_iff.1 hn
  obtain ⟨source', hs', halike⟩ := h.exists_file hs
  exact exists_named_iff.2 ⟨importer, source', h.whole hw, hs', target, name,
    (halike.requests (.type hP name) target).1 hrequest, h.firstFrom hfirst⟩

theorem askedName (h : AlikeFiles files files') (ha : AskedName files name) : AskedName files' name := by
  obtain ⟨file, index, hasked, hd⟩ := ha
  refine ⟨file, index, ?_, h.definesAt hd⟩
  rcases hasked with hw | ⟨filter, hn⟩
  · exact .inl (h.inWhole hw)
  · obtain ⟨filter', hn', -⟩ := h.exists_named joins_true ⟨filter, hn, trivial⟩
    exact .inr ⟨filter', hn'⟩

/-- A choice that lacks nothing in some files lacks nothing in alike ones. -/
theorem closed (h : AlikeFiles files files') {choice : Choice} (hc : Closed files choice) : Closed files' choice where
  whole hw := hc.whole (h.symm.inWhole hw)
  named {file index filter} hn := by
    constructor
    · obtain ⟨filter', hn', -⟩ := h.symm.exists_named joins_true ⟨filter, hn, trivial⟩
      exact (hc.named hn').1
    · intro field hkeeps
      obtain ⟨filter', hn', hkeeps'⟩ := h.symm.exists_named (joins_keeps field) ⟨filter, hn, hkeeps⟩
      exact (hc.named hn').2 field hkeeps'
  referred hholds htype hr hbuilt hasked hfirst := by
    obtain ⟨type', htype', he⟩ := h.symm.exists_typeAt htype
    have hbody := congrArg TypeDefinition.body he
    exact hc.referred hholds htype' (hbody ▸ hr) hbuilt (fun ha => hasked (h.askedName ha)) (h.symm.firstLoaded hfirst)

theorem exists_selection_iff_forall :
    (∃ selected, select files = .ok selected) ↔ ∀ result ∈ namedTypes files, ∃ s, result = .ok s := by
  unfold select
  dsimp only
  split <;> rename_i h <;> rw [List.isEmpty_iff, List.filterMap_eq_nil_iff] at h
  · refine iff_of_true ⟨_, rfl⟩ fun result hm => ?_
    have hnone := h result hm
    cases result with
    | ok s => exact ⟨s, rfl⟩
    | error problem => cases hnone
  · refine iff_of_false (by rintro ⟨selected, hs⟩; cases hs) fun hall => h fun result hm => ?_
    obtain ⟨s, rfl⟩ := hall result hm
    rfl

theorem mem_namedTypes {result : Except Problem Selected} : result ∈ namedTypes files ↔
    ∃ importer source, Whole files importer ∧ files[importer]? = some source ∧ ∃ directive ∈ source.imports,
      ∃ types, directive.selection = .types types ∧ ∃ type ∈ types, result = namedType files source directive type := by
  simp only [namedTypes, List.mem_flatMap, Prod.exists, List.mem_zipIdx_iff_getElem?]
  constructor
  · rintro ⟨source, importer, hs, hm⟩
    split at hm <;> rename_i hw
    · obtain ⟨directive, hd, hm⟩ := List.mem_flatMap.1 hm
      split at hm <;> rename_i htypes
      · cases hm
      · obtain ⟨type, ht, rfl⟩ := List.mem_map.1 hm
        exact ⟨importer, source, isWhole_iff.1 hw, hs, directive, hd, _, htypes, type.1, type.2, ht, rfl⟩
    · cases hm
  · rintro ⟨importer, source, hw, hs, directive, hd, types, htypes, name, filter, ht, rfl⟩
    refine ⟨source, importer, hs, ?_⟩
    rw [if_pos (isWhole_iff.2 hw)]
    refine List.mem_flatMap.2 ⟨directive, hd, ?_⟩
    rw [htypes]
    exact List.mem_map_of_mem ht

/-- A selection succeeds if all that is asked for is found. -/
theorem exists_selection_iff : (∃ selected, select files = .ok selected) ↔
    ∀ importer source, Whole files importer → files[importer]? = some source → ∀ target name,
      source.Requests (Selection.AsksOf (fun _ => True) name) target → ∃ file index, FirstFrom files target name file index := by
  rw [exists_selection_iff_forall]
  constructor
  · rintro h importer source hw hs _ name ⟨link, hl, ⟨types, htypes, filter, hm, -⟩, rfl⟩
    obtain ⟨s, hok⟩ := h _ (mem_namedTypes.2 ⟨importer, source, hw, hs, link, hl, types, htypes, _, hm, rfl⟩)
    exact ⟨s.file, s.definition, (namedType_eq_ok_iff.1 hok).1⟩
  · intro h result hm
    obtain ⟨importer, source, hw, hs, link, hl, types, htypes, ⟨name, filter⟩, ht, rfl⟩ := mem_namedTypes.1 hm
    obtain ⟨file, index, hfirst⟩ :=
      h importer source hw hs link.target name ⟨link, hl, ⟨types, htypes, filter, ht, trivial⟩, rfl⟩
    exact ⟨⟨file, index, filter⟩, namedType_eq_ok_iff.2 ⟨hfirst, rfl⟩⟩

theorem exists_selection (h : AlikeFiles files files') (hs : ∃ selected, select files = .ok selected) :
    ∃ selected, select files' = .ok selected := by
  rw [exists_selection_iff] at hs ⊢
  intro importer source' hw hs' target name hrequest
  obtain ⟨source, hsource, halike⟩ := h.symm.exists_file hs'
  obtain ⟨file, index, hfirst⟩ := hs importer source (h.symm.whole hw) hsource target name
    ((halike.requests (.type joins_true name) target).1 hrequest)
  exact ⟨file, index, h.firstFrom hfirst⟩

end AlikeFiles

/-! ## The same definitions -/

variable {files files' : List SchemaFile} {selected selected' : List Selected}

theorem selected_of_select (h : select files = .ok selected) :
    selected.Pairwise Selected.Precedes ∧ Closed files (Choice.ofList selected) ∧
      ∀ choice, Closed files choice → Choice.ofList selected ≤ choice := by
  obtain rfl := select_eq_ok h
  rw [ofList_perm (List.mergeSort_perm _ _)]
  exact ⟨pairwise_precedes nodup_selected, closed_selected, fun choice hc => hc.selected_le⟩

/-- Ascending places are told by what they hold. -/
theorem map_place_eq (h : selected.Pairwise Selected.Precedes) (h' : selected'.Pairwise Selected.Precedes)
    (hholds : ∀ file index, (Choice.ofList selected).holds file index ↔ (Choice.ofList selected').holds file index) :
    selected.map Selected.place = selected'.map Selected.place := by
  have hsorted {selected : List Selected} (h : selected.Pairwise Selected.Precedes) :
      (selected.map fun s => toLex s.place).SortedLT :=
    List.Pairwise.sortedLT (List.pairwise_map.2 (h.imp fun hp => Prod.Lex.toLex_lt_toLex.2 hp))
  have hmem (selected : List Selected) (place : Nat ×ₗ Nat) : place ∈ selected.map (fun s => toLex s.place) ↔
      (Choice.ofList selected).holds (ofLex place).1 (ofLex place).2 := by
    constructor
    · intro hm
      obtain ⟨s, hs, rfl⟩ := List.mem_map.1 hm
      exact ⟨s, hs, rfl, rfl⟩
    · rintro ⟨s, hs, hfile, hindex⟩
      exact List.mem_map.2 ⟨s, hs, congrArg toLex (Prod.ext hfile hindex)⟩
  have hall := List.SortedLT.eq_of_mem_iff (hsorted h) (hsorted h') fun place => by
    rw [hmem, hmem]
    exact hholds ..
  simpa [Function.comp_def] using congrArg (List.map ofLex) hall

/-- Each place is there once, so what is kept there is what its one selection keeps. -/
theorem keeps_ofList (h : selected.Pairwise Selected.Precedes) {s : Selected} (hs : s ∈ selected) (field : String) :
    (Choice.ofList selected).keeps s.file s.definition field ↔ s.fields.keeps field = true := by
  refine ⟨fun hkeeps => ?_, fun hkeeps => ⟨s, hs, rfl, rfl, hkeeps⟩⟩
  obtain ⟨t, ht, hfile, hindex, hkeeps⟩ := hkeeps
  have hnodup : (selected.map Selected.place).Nodup := by
    refine List.pairwise_map.2 (h.imp fun {a b} hp he => ?_)
    obtain ⟨hfile, hindex⟩ := Prod.mk.inj he
    rcases hp with hlt | ⟨-, hlt⟩
    · exact Nat.ne_of_lt hlt hfile
    · exact Nat.ne_of_lt hlt hindex
  exact List.inj_on_of_nodup_map hnodup ht hs (Prod.ext hfile hindex) ▸ hkeeps

/-- Lists with the same images, item by item. -/
theorem forall₂_of_map_eq {α β γ : Type} {f : α → γ} {g : β → γ} {R : α → β → Prop} {items : List α} {others : List β}
    (h : items.map f = others.map g) (hR : ∀ item ∈ items, ∀ other ∈ others, f item = g other → R item other) :
    List.Forall₂ R items others := by
  have hall : List.Forall₂ (fun item other => f item = g other) items others :=
    List.forall₂_map_left_iff.1 (List.forall₂_map_right_iff.1 (h ▸ List.forall₂_refl _))
  refine List.forall₂_iff_zip.2 ⟨hall.length_eq, fun {item other} hm => ?_⟩
  obtain ⟨hi, ho⟩ := List.of_mem_zip hm
  exact hR item hi other ho (List.forall₂_zip hall hm)

/-- Two selections of one definition, with the same fields. -/
def Selected.Same (s s' : Selected) : Prop := s.place = s'.place ∧ s.fields.keeps = s'.fields.keeps

theorem select_alike (h : AlikeFiles files files') (hs : select files = .ok selected)
    (hs' : select files' = .ok selected') : List.Forall₂ Selected.Same selected selected' := by
  obtain ⟨hplaces, hclosed, hleast⟩ := selected_of_select hs
  obtain ⟨hplaces', hclosed', hleast'⟩ := selected_of_select hs'
  have hle := hleast _ (h.symm.closed hclosed')
  have hle' := hleast' _ (h.closed hclosed)
  have hplace := map_place_eq hplaces hplaces' fun file index => ⟨hle.1 file index, hle'.1 file index⟩
  refine forall₂_of_map_eq hplace fun s hmem s' hmem' heq => ?_
  obtain ⟨hfile, hindex⟩ := Prod.mk.inj heq
  refine ⟨heq, funext fun field => ?_⟩
  rw [Bool.eq_iff_iff, ← keeps_ofList hplaces hmem, ← keeps_ofList hplaces' hmem', hfile, hindex]
  exact ⟨hle.2 _ _ field, hle'.2 _ _ field⟩

/-! ## The same text -/

def Origin.unplaced (origin : Origin) : Origin := (origin.1, origin.2.unplaced)

theorem restrict_congr {filter filter' : FieldFilter} (h : filter.keeps = filter'.keeps) (definition : Definition) :
    restrict filter definition = restrict filter' definition := by
  have hbody (body : TypeBody) : filter.applyTo body = filter'.applyTo body := by
    cases body <;> simp only [FieldFilter.applyTo, h]
  cases definition <;> simp only [restrict, hbody]

theorem unplaced_restrict (filter : FieldFilter) (definition : Definition) :
    (restrict filter definition).unplaced = restrict filter definition.unplaced := by
  cases definition <;> rfl

theorem unplaced_definition? (h : AlikeFiles files files') {s s' : Selected} (hs : s.Same s') :
    ((s.definition? files).map (s.file, ·)).map Origin.unplaced =
      ((s'.definition? files').map (s'.file, ·)).map Origin.unplaced := by
  have hdefinition (files : List SchemaFile) (s : Selected) : ((s.definition? files).map (s.file, ·)).map Origin.unplaced =
      ((definitionAt? files s.file s.definition).map Definition.unplaced).map fun definition =>
        (s.file, restrict s.fields definition) := by
    have hbind : s.definition? files = (definitionAt? files s.file s.definition).map (restrict s.fields) := by
      unfold Selected.definition? definitionAt?
      cases files[s.file]? with
      | none => rfl
      | some source => cases h : source.definitions[s.definition]? <;> simp [h]
    rw [hbind, Option.map_map, Option.map_map, Option.map_map]
    congr 1
    funext definition
    exact Prod.ext rfl (unplaced_restrict s.fields definition)
  obtain ⟨hplace, hkeeps⟩ := hs
  obtain ⟨hfile, hindex⟩ := Prod.mk.inj hplace
  rw [hdefinition, hdefinition, ← hfile, ← hindex, h.unplaced_definitionAt?]
  simp only [restrict_congr hkeeps]

theorem rootNames_unplaced (definitions : List Definition) :
    rootNames (definitions.map Definition.unplaced) = rootNames definitions := by
  unfold rootNames
  rw [List.flatMap_map]
  congr 2
  funext definition
  cases definition <;> rfl

theorem objectParts?_unplaced (definition : Definition) : objectParts? definition.unplaced = objectParts? definition := by
  cases definition <;> rfl

theorem mergeObject_unplaced (interfaces : List String) (fields : List Field) (definition : Definition) :
    mergeObject interfaces fields definition.unplaced = (mergeObject interfaces fields definition).unplaced := by
  cases definition with
  | type type =>
    obtain ⟨position, description, name, directives, body⟩ := type
    cases body <;> rfl
  | schema | extension | directive => rfl

theorem emit_unplaced (roots : List String) (emitted : List Origin) (next : Origin) :
    emit roots (emitted.map Origin.unplaced) next.unplaced = (emit roots emitted next).map Origin.unplaced := by
  have hparts (origin : Origin) : objectParts? origin.unplaced.2 = objectParts? origin.2 := objectParts?_unplaced origin.2
  unfold emit
  rw [hparts]
  cases objectParts? next.2 with
  | none =>
    dsimp only
    rw [List.map_append]
    rfl
  | some parts =>
    obtain ⟨name, interfaces, fields⟩ := parts
    have hfind : (emitted.map Origin.unplaced).findIdx? (fun origin => roots.contains name && isObjectNamed name origin.2) =
        emitted.findIdx? fun origin => roots.contains name && isObjectNamed name origin.2 := by
      rw [List.findIdx?_map]
      simp only [Function.comp_def, isObjectNamed, hparts]
    dsimp only
    rw [hfind]
    cases emitted.findIdx? (fun origin => roots.contains name && isObjectNamed name origin.2) with
    | none =>
      dsimp only
      rw [List.map_append]
      rfl
    | some index =>
      refine List.ext_getElem? fun place => ?_
      simp only [List.getElem?_modify, List.getElem?_map]
      cases emitted[place]? with
      | none => rfl
      | some origin =>
        by_cases hplace : index = place
        · simp only [hplace, if_true, Option.map_some]
          exact congrArg some (Prod.ext rfl (mergeObject_unplaced interfaces fields origin.2))
        · simp [hplace]

theorem foldl_emit_unplaced (roots : List String) (definitions emitted : List Origin) :
    (definitions.map Origin.unplaced).foldl (emit roots) (emitted.map Origin.unplaced) =
      (definitions.foldl (emit roots) emitted).map Origin.unplaced := by
  induction definitions generalizing emitted with
  | nil => rfl
  | cons next definitions ih => rw [List.map_cons, List.foldl_cons, List.foldl_cons, emit_unplaced, ih]

theorem mergeRoots_unplaced (definitions : List Origin) :
    mergeRoots (definitions.map Origin.unplaced) = (mergeRoots definitions).map Origin.unplaced := by
  have hroots : rootNames ((definitions.map Origin.unplaced).map (·.2)) = rootNames (definitions.map (·.2)) := by
    rw [← rootNames_unplaced (definitions.map (·.2)), List.map_map, List.map_map]
    rfl
  rw [mergeRoots, hroots]
  exact foldl_emit_unplaced _ definitions []

theorem print_unplaced (definition : Definition) : definition.unplaced.print = definition.print := by
  cases definition <;> rfl

theorem map_unplaced_definitions (h : AlikeFiles files files') (hs : List.Forall₂ Selected.Same selected selected') :
    (selected.filterMap fun s => (s.definition? files).map (s.file, ·)).map Origin.unplaced =
      (selected'.filterMap fun s => (s.definition? files').map (s.file, ·)).map Origin.unplaced := by
  rw [List.map_filterMap, List.map_filterMap]
  induction hs with
  | nil => rfl
  | cons hsame _ ih => rw [List.filterMap_cons, List.filterMap_cons, ih, unplaced_definition? h hsame]

/-- Alike files have the same combined text. -/
theorem combine_alike (h : AlikeFiles files files') (hs : select files = .ok selected) :
    ∃ selected', select files' = .ok selected' ∧
      (Source.combine files' selected').contents = (Source.combine files selected).contents := by
  obtain ⟨selected', hs'⟩ := h.exists_selection ⟨selected, hs⟩
  refine ⟨selected', hs', ?_⟩
  have hdefinitions := map_unplaced_definitions h (select_alike h hs hs')
  have hmerged : (mergedOrigins files' selected').map Origin.unplaced = (mergedOrigins files selected).map Origin.unplaced := by
    rw [mergedOrigins, mergedOrigins, ← mergeRoots_unplaced, ← mergeRoots_unplaced, hdefinitions]
  have hprint (origins : List Origin) : origins.map (·.2.print) = (origins.map Origin.unplaced).map (·.2.print) := by
    rw [List.map_map]
    exact List.map_congr_left fun origin _ => (print_unplaced origin.2).symm
  rw [combine_eq, combine_eq]
  dsimp only
  rw [hprint (mergedOrigins files' selected'), hmerged, ← hprint]

end SchemaFragments.Import
