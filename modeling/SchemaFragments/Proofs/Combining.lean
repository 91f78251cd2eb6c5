import SchemaFragments.Import.Combined
import SchemaFragments.Proofs.Loading
import SchemaFragments.Proofs.Parsed
import SchemaFragments.Proofs.Rereading
import SchemaFragments.Proofs.Selection
import SchemaFragments.Proofs.Spelling
/-!
# Combined definitions

Selecting, filtering and merging keep what parsing makes sure of: every definition that is emitted is a
regular schema or type definition. The combined text spells the words of these, one definition after the
other.
-/

namespace SchemaFragments.Import

open Document

/-! ## What filters and merging keep -/

/-- A definition that is emitted. -/
def Emittable (definition : Definition) : Prop := isSelectable definition = true ∧ definition.Regular

theorem regular_applyTo {filter : FieldFilter} {body : TypeBody} (h : body.Regular) :
    (filter.applyTo body).Regular := by
  cases body with
  | object interfaces fields | interface interfaces fields =>
    exact ⟨h.1, fun field hf => h.2 field (List.mem_of_mem_filter hf)⟩
  | scalar | union | enum | inputObject => exact h

theorem emittable_restrict {filter : FieldFilter} {definition : Definition} (h : Emittable definition) :
    Emittable (restrict filter definition) := by
  cases definition with
  | type type => exact ⟨rfl, h.2.name, h.2.directives, regular_applyTo h.2.body⟩
  | schema | extension | directive => exact h

theorem mem_mergeFields {fields more : List Field} {field : Field} (h : field ∈ mergeFields fields more) :
    field ∈ fields ∨ field ∈ more := by
  unfold mergeFields at h
  induction more generalizing fields with
  | nil => exact .inl h
  | cons first more ih =>
    rw [List.foldl_cons] at h
    rcases ih h with hm | hm
    · split at hm
      · exact .inl hm
      · simpa [or_assoc] using List.mem_append.1 hm |>.imp_right fun hm => .inl (by simpa using hm)
    · exact .inr (.tail _ hm)

theorem emittable_mergeObject {interfaces : List String} {fields : List Field} {definition : Definition}
    (h : Emittable definition) (hinterfaces : ∀ name ∈ interfaces, IsName name)
    (hfields : ∀ field ∈ fields, field.Regular 1) : Emittable (mergeObject interfaces fields definition) := by
  cases definition with
  | type type =>
    obtain ⟨hselectable, hname, huses, hbody⟩ := h
    simp only [mergeObject]
    split
    · rename_i interfaces' fields' heq
      rw [heq] at hbody
      refine ⟨rfl, hname, huses, fun name hn => ?_, fun field hf => ?_⟩
      · exact (mem_addNames.1 hn).elim (hbody.1 name) (hinterfaces name)
      · exact (mem_mergeFields hf).elim (hbody.2 field) (hfields field)
    · exact ⟨hselectable, hname, huses, hbody⟩
  | schema | extension | directive => exact h

theorem regular_objectParts {definition : Definition} {name : String} {interfaces : List String}
    {fields : List Field} (h : Emittable definition)
    (hparts : objectParts? definition = some (name, interfaces, fields)) :
    (∀ name ∈ interfaces, IsName name) ∧ ∀ field ∈ fields, field.Regular 1 := by
  obtain ⟨type, htype, hbody⟩ := Option.bind_eq_some_iff.1 hparts
  cases definition with
  | type type' =>
    obtain rfl := Option.some.inj htype
    split at hbody
    · rename_i heq
      cases hbody
      have hregular := h.2.body
      rwa [heq] at hregular
    · cases hbody
  | schema | extension | directive => cases htype

theorem emittable_emit {roots : List String} {emitted : List Origin} {next : Origin}
    (h : ∀ origin ∈ emitted, Emittable origin.2) (hnext : Emittable next.2) :
    ∀ origin ∈ emit roots emitted next, Emittable origin.2 := by
  have happend : ∀ origin ∈ emitted ++ [next], Emittable origin.2 := by
    simp only [List.mem_append, List.mem_singleton]
    rintro origin (ho | rfl)
    · exact h origin ho
    · exact hnext
  unfold emit
  split
  · rename_i name interfaces fields hparts
    split
    · -- a root that is there already: its fields and interfaces are added to it
      rename_i index _
      obtain ⟨hinterfaces, hfields⟩ := regular_objectParts hnext hparts
      intro origin ho
      obtain ⟨place, hplace⟩ := List.getElem?_of_mem ho
      obtain ⟨old, hold, rfl⟩ : ∃ old, emitted[place]? = some old ∧
          (if index = place then (old.1, mergeObject interfaces fields old.2) else old) = origin := by
        simpa [List.getElem?_modify, eq_comm] using hplace
      have hemittable := h old (List.mem_of_getElem? hold)
      split
      · exact emittable_mergeObject hemittable hinterfaces hfields
      · exact hemittable
    · exact happend
  · exact happend

theorem emittable_mergeRoots {definitions : List Origin} (h : ∀ origin ∈ definitions, Emittable origin.2) :
    ∀ origin ∈ mergeRoots definitions, Emittable origin.2 :=
  List.foldlRecOn definitions _ (motive := fun emitted : List Origin => ∀ origin ∈ emitted, Emittable origin.2)
    (by simp) fun _ hemitted next hnext => emittable_emit hemitted (h next hnext)

/-! ## What is selected -/

/-- A file holds what its text is parsed as, or nothing. -/
def SchemaFile.Parsed (file : SchemaFile) : Prop :=
  file.definitions = [] ∨ Document.parse file.contents = .ok file.definitions

theorem parsed_addFile {loader loader' : Loader} {path : Path} {identity : Location} {contents : String}
    {pending : List Pending} (h : loader.addFile path identity contents = some (loader', pending))
    (hfiles : ∀ file ∈ loader.files, file.Parsed) : ∀ file ∈ loader'.files, file.Parsed := by
  have hall (definitions : List Definition) (hparsed : definitions = [] ∨ Document.parse contents = .ok definitions) :
      ∀ file ∈ loader.files ++ [⟨path, identity, contents, definitions, []⟩], file.Parsed := by
    simp only [List.mem_append, List.mem_singleton]
    rintro file (hf | rfl)
    · exact hfiles file hf
    · exact hparsed
  simp only [Loader.addFile] at h
  split at h <;> simp only [Option.some.injEq, Prod.mk.injEq, reduceCtorEq] at h <;> obtain ⟨rfl, -⟩ := h
  · rename_i definitions hparse
    refine hall definitions ?_
    split at hparse
    · exact .inr hparse
    · exact .inl (Except.ok.inj hparse).symm
  · exact hall [] (.inl rfl)

theorem parsed_link {loader : Loader} {next : Pending} {target : Nat}
    (hfiles : ∀ file ∈ loader.files, file.Parsed) : ∀ file ∈ (loader.link next target).files, file.Parsed := by
  intro file hf
  obtain ⟨index, hindex⟩ := List.getElem?_of_mem hf
  rw [Loader.getElem?_link, Option.map_eq_some_iff] at hindex
  obtain ⟨old, hold, rfl⟩ := hindex
  have hparsed := hfiles old (List.mem_of_getElem? hold)
  split <;> exact hparsed

theorem parsed_follow {tree : FileTree} {pending : List Pending} {loader final : Loader}
    (h : loader.follow tree pending = some final) (hfiles : ∀ file ∈ loader.files, file.Parsed) :
    ∀ file ∈ final.files, file.Parsed := by
  fun_induction Loader.follow tree pending loader with
  | case1 loader =>
    obtain rfl := Option.some.inj h
    exact hfiles
  | case2 _ _ _ _ _ ih => exact ih h hfiles
  | case3 _ _ _ _ _ _ _ ih => exact ih h (parsed_link hfiles)
  | case4 => cases h
  | case5 _ _ _ _ _ _ _ _ _ ha ih => exact ih h (parsed_link (parsed_addFile ha hfiles))

theorem parsed_loadFiles {tree : FileTree} {path : Path} {loader : Loader} (h : loadFiles tree path = .ok loader) :
    ∀ file ∈ loader.files, file.Parsed := by
  unfold loadFiles at h
  split at h
  · cases h
  split at h
  · rename_i final hfollow
    obtain rfl := Except.ok.inj h
    obtain ⟨⟨loader, pending⟩, hadd, hfollow⟩ := Option.bind_eq_some_iff.1 hfollow
    exact parsed_follow hfollow (parsed_addFile hadd (by simp [Loader.empty]))
  · cases h

/-- All that is selectable is a choice that lacks nothing. -/
theorem closed_selectable (files : List SchemaFile) : Closed files
    ⟨fun file index => ∃ definition, definitionAt? files file index = some definition ∧
      isSelectable definition = true, fun _ _ _ => True⟩ := by
  have hfirst {name : String} {file index : Nat} (h : FirstIn files name file index) :
      ∃ definition, definitionAt? files file index = some definition ∧ isSelectable definition = true := by
    obtain ⟨⟨type, htype, -⟩, -⟩ := h
    obtain ⟨definition, hd, ht⟩ := Option.bind_eq_some_iff.1 htype
    refine ⟨definition, hd, ?_⟩
    cases definition with
    | type => rfl
    | schema | extension | directive => cases ht
  constructor
  case whole => exact fun h => ⟨h.2, fun _ => trivial⟩
  case named =>
    rintro file index filter ⟨_, _, _, _, _, _, _, _, _, _, h⟩
    exact ⟨hfirst h.1, fun _ _ => trivial⟩
  case referred => exact fun _ _ _ _ _ h => ⟨hfirst h.1, fun _ => trivial⟩

theorem emittable_selected {files : List SchemaFile} {selected : List Selected} (h : select files = .ok selected)
    (hfiles : ∀ file ∈ files, file.Parsed) {s : Selected} (hs : s ∈ selected) {definition : Definition}
    (hd : s.definition? files = some definition) : Emittable definition := by
  obtain rfl := select_eq_ok h
  -- the selection is the least one, so it is no more than everything selectable
  obtain ⟨definition', hd', hselectable⟩ :=
    (closed_selectable files).selected_le.1 s.file s.definition ⟨s, by simpa using hs, rfl, rfl⟩
  obtain ⟨file, hfile, hmem⟩ := Option.bind_eq_some_iff.1 hd'
  obtain rfl : restrict s.fields definition' = definition := by
    simpa [Selected.definition?, hfile, hmem] using hd
  have hregular : definition'.Regular := by
    have hmem := List.mem_of_getElem? hmem
    rcases hfiles file (List.mem_of_getElem? hfile) with hnone | hparse
    · rw [hnone] at hmem
      cases hmem
    · exact (of_parse hparse).1.regular definition' hmem
  exact emittable_restrict ⟨hselectable, hregular⟩

/-! ## The text -/

/-- The definitions of the combined document. -/
def emitted (files : List SchemaFile) (selected : List Selected) : List Definition :=
  (mergeRoots (selected.filterMap fun s => (s.definition? files).map (s.file, ·))).map (·.2)

theorem finishes_definition {definition : Definition} (h : isSelectable definition = true) :
    Finishes definition.print.toList definition.words := by
  cases definition with
  | schema schema => exact finishes_schema schema
  | type type => exact finishes_type type
  | extension | directive => cases h

theorem emittable_emitted {files : List SchemaFile} {selected : List Selected} (h : select files = .ok selected)
    (hfiles : ∀ file ∈ files, file.Parsed) : ∀ definition ∈ emitted files selected, Emittable definition := by
  intro definition hd
  obtain ⟨origin, ho, rfl⟩ := List.mem_map.1 hd
  refine emittable_mergeRoots (fun origin ho => ?_) origin ho
  obtain ⟨s, hs, hsome⟩ := List.mem_filterMap.1 ho
  obtain ⟨definition, hd, rfl⟩ := Option.map_eq_some_iff.1 hsome
  exact emittable_selected h hfiles hs hd

theorem finishes_push {source : Source} {origin : Origin} {written : List Definition}
    (h : Finishes source.contents.toList (documentWords written)) (ho : isSelectable origin.2 = true) :
    Finishes (source.push origin).contents.toList (documentWords (written ++ [origin.2])) := by
  have hwords : documentWords (written ++ [origin.2]) = documentWords written ++ origin.2.words := by
    simp [documentWords]
  rw [hwords, Source.contents_push]
  split
  · rename_i hempty
    rw [String.isEmpty_iff.1 hempty] at h
    exact h.append (finishes_definition ho)
  · simp only [String.toList_append, String.reduceToList, List.append_assoc, List.cons_append, List.nil_append]
    exact h.append (finishes_definition ho).line

theorem finishes_foldl_push (source : Source) {origins : List Origin} (written : List Definition)
    (h : Finishes source.contents.toList (documentWords written))
    (horigins : ∀ origin ∈ origins, isSelectable origin.2 = true) :
    Finishes (origins.foldl Source.push source).contents.toList (documentWords (written ++ origins.map (·.2))) := by
  induction origins generalizing source written with
  | nil => simpa using h
  | cons origin origins ih =>
    obtain ⟨horigin, horigins⟩ := List.forall_mem_cons.1 horigins
    rw [List.foldl_cons, List.map_cons, List.append_cons]
    exact ih _ _ (finishes_push h horigin) horigins

/-- Pushing definitions keeps the files and adds a segment for each. -/
theorem foldl_push (source : Source) (origins : List Origin) :
    (origins.foldl Source.push source).files = source.files ∧
      (origins.foldl Source.push source).segments.length = source.segments.length + origins.length := by
  induction origins generalizing source with
  | nil => exact ⟨rfl, rfl⟩
  | cons origin origins ih =>
    obtain ⟨hfiles, hsegments⟩ := ih (source.push origin)
    refine ⟨hfiles, hsegments.trans ?_⟩
    rw [Source.push, List.length_append, List.length_singleton, List.length_cons]
    omega

theorem files_combine (files : List SchemaFile) (selected : List Selected) :
    (Source.combine files selected).files = files :=
  (foldl_push _ _).1

theorem length_segments_combine (files : List SchemaFile) (selected : List Selected) :
    (Source.combine files selected).segments.length = (emitted files selected).length := by
  rw [Source.combine, (foldl_push _ _).2, emitted, List.length_map]
  exact Nat.zero_add _

/-- The combined text spells the definitions that are emitted. -/
theorem spells_combine {files : List SchemaFile} {selected : List Selected}
    (h : ∀ definition ∈ emitted files selected, Emittable definition) :
    Spells (Source.combine files selected).contents.toList (documentWords (emitted files selected)) := by
  have hfinishes := finishes_foldl_push ⟨files, "", []⟩ [] finishes_nil
    fun origin ho => (h origin.2 (List.mem_map_of_mem ho)).1
  simpa [Source.combine, emitted] using hfinishes [] [] .nil

end SchemaFragments.Import
