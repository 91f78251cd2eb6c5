import Mathlib
import SchemaFragments.Proofs.Lookup
/-!
# The least selection

`select` said as a least closed set. A choice of definitions is closed when it holds what the whole files
define, what their directives name and, unfiltered, the first definition of every other name that one of
its definitions refers to with the fields it keeps. `select_isLeast`: a selection that succeeds is the
least closed choice, each place once and in order.
-/

namespace SchemaFragments.Import

open Document

variable {files : List SchemaFile} {file index : Nat} {name field : String}

/-! ## Closed choices -/

/-- Places of definitions, and the fields that each of them keeps. -/
structure Choice where
  holds : Nat → Nat → Prop
  keeps : Nat → Nat → String → Prop

instance : LE Choice where
  le a b := (∀ file index, a.holds file index → b.holds file index) ∧
    ∀ file index field, a.keeps file index field → b.keeps file index field

/-- The schema or type definitions of whole files. -/
def InWhole (files : List SchemaFile) (file index : Nat) : Prop :=
  Whole files file ∧ ∃ definition, definitionAt? files file index = some definition ∧
    isSelectable definition = true

/-- A directive of a whole file asks for fields of the type at a place. -/
def Named (files : List SchemaFile) (file index : Nat) (filter : FieldFilter) : Prop :=
  ∃ importer source, Whole files importer ∧ files[importer]? = some source ∧
    ∃ directive ∈ source.imports, ∃ types, directive.selection = .types types ∧
      ∃ name, (name, filter) ∈ types ∧ FirstFrom files directive.target name file index

def Asked (files : List SchemaFile) (file index : Nat) : Prop :=
  InWhole files file index ∨ ∃ filter, Named files file index filter

/-- A type that is asked for has the name. -/
def AskedName (files : List SchemaFile) (name : String) : Prop :=
  ∃ file index, Asked files file index ∧ DefinesAt files name file index

/-- A type refers to a name when it keeps only some of its fields. -/
def RefersTo (keeps : String → Prop) (name : String) : TypeBody → Prop
  | .object interfaces fields | .interface interfaces fields =>
    name ∈ interfaces ∨ ∃ field ∈ fields, keeps field.name ∧ name ∈ field.references
  | body => name ∈ body.references

/-- A choice holds what is asked for, and the first definition of every other name it refers to. -/
structure Closed (files : List SchemaFile) (choice : Choice) : Prop where
  whole {file index : Nat} : InWhole files file index →
    choice.holds file index ∧ ∀ field, choice.keeps file index field
  named {file index : Nat} {filter : FieldFilter} : Named files file index filter →
    choice.holds file index ∧ ∀ field, filter.keeps field = true → choice.keeps file index field
  referred {file index : Nat} {type : TypeDefinition} {name : String} {first place : Nat} :
    choice.holds file index → typeAt? files file index = some type →
    RefersTo (choice.keeps file index) name type.body → name ∉ builtInScalars → ¬ AskedName files name →
    FirstLoaded files name first place →
    choice.holds first place ∧ ∀ field, choice.keeps first place field

/-- What a list of selected definitions holds and keeps. -/
def Choice.ofList (selected : List Selected) : Choice where
  holds file index := ∃ s ∈ selected, s.file = file ∧ s.definition = index
  keeps file index field := ∃ s ∈ selected, s.file = file ∧ s.definition = index ∧ s.fields.keeps field = true

theorem RefersTo.mono {keeps keeps' : String → Prop} {body : TypeBody} (h : RefersTo keeps name body)
    (hk : ∀ field, keeps field → keeps' field) : RefersTo keeps' name body := by
  cases body with
  | object | interface => exact h.imp_right fun ⟨f, hf, hkeep, hr⟩ => ⟨f, hf, hk _ hkeep, hr⟩
  | scalar | union | enum | inputObject => exact h

/-- The references that are left of a type are those it has with the fields it keeps. -/
theorem mem_references_applyTo {filter : FieldFilter} {body : TypeBody} :
    name ∈ (filter.applyTo body).references ↔ RefersTo (filter.keeps · = true) name body := by
  cases body <;> simp [FieldFilter.applyTo, TypeBody.references, RefersTo, and_assoc]

theorem keeps_all : FieldFilter.all.keeps field = true := rfl

theorem mem_addNames {names more : List String} :
    field ∈ FieldFilter.addNames names more ↔ field ∈ names ∨ field ∈ more := by
  unfold FieldFilter.addNames
  induction more generalizing names with
  | nil => simp
  | cons name more ih =>
    rw [List.foldl_cons, ih]
    split <;> rename_i h
    · have hname : name ∈ names := by simpa using h
      simp only [List.mem_cons]
      exact ⟨fun h => h.imp_right .inr, fun h => h.elim .inl fun h =>
        h.elim (fun he => .inl (he ▸ hname)) .inr⟩
    · simp [or_assoc]

/-- What is asked for twice keeps the fields of both. -/
theorem keeps_merge {a b : FieldFilter} :
    (a.merge b).keeps field = true ↔ a.keeps field = true ∨ b.keeps field = true := by
  cases a <;> cases b <;> simp [FieldFilter.merge, FieldFilter.keeps, mem_addNames]

/-! ## What is asked for -/

theorem holds_addSelected {selected : List Selected} {new : Selected} :
    (Choice.ofList (addSelected selected new)).holds file index ↔
      (Choice.ofList selected).holds file index ∨ (new.file = file ∧ new.definition = index) := by
  unfold addSelected Choice.ofList
  split <;> rename_i h
  · obtain ⟨old, ho, hf, hd⟩ : ∃ old ∈ selected, old.file = new.file ∧ old.definition = new.definition := by
      simpa using h
    simp only [List.mem_map]
    constructor
    · rintro ⟨_, ⟨s, hs, rfl⟩, hsf, hsd⟩
      exact .inl ⟨s, hs, by split at hsf <;> exact hsf, by split at hsd <;> exact hsd⟩
    · rintro (⟨s, hs, hsf, hsd⟩ | ⟨rfl, rfl⟩)
      · exact ⟨_, ⟨s, hs, rfl⟩, by split <;> exact hsf, by split <;> exact hsd⟩
      · exact ⟨_, ⟨old, ho, rfl⟩, by split <;> exact hf, by split <;> exact hd⟩
  · simp [or_and_right, exists_or]

theorem keeps_addSelected {selected : List Selected} {new : Selected} :
    (Choice.ofList (addSelected selected new)).keeps file index field ↔
      (Choice.ofList selected).keeps file index field ∨
        (new.file = file ∧ new.definition = index ∧ new.fields.keeps field = true) := by
  unfold addSelected Choice.ofList
  split <;> rename_i h
  · obtain ⟨old, ho, hf, hd⟩ : ∃ old ∈ selected, old.file = new.file ∧ old.definition = new.definition := by
      simpa using h
    simp only [List.mem_map]
    constructor
    · rintro ⟨_, ⟨s, hs, rfl⟩, hsf, hsd, hk⟩
      split at hsf <;> rename_i hs'
      · simp only [hs', and_self, if_true, keeps_merge] at hsd hk hsf
        rcases hk with hk | hk
        · exact .inl ⟨s, hs, hs'.1.trans hsf, hs'.2.trans hsd, hk⟩
        · exact .inr ⟨hsf, hsd, hk⟩
      · rw [if_neg hs'] at hsd hk
        exact .inl ⟨s, hs, hsf, hsd, hk⟩
    · rintro (⟨s, hs, hsf, hsd, hk⟩ | ⟨rfl, rfl, hk⟩)
      · refine ⟨_, ⟨s, hs, rfl⟩, by split <;> exact hsf, by split <;> exact hsd, ?_⟩
        split
        · exact keeps_merge.2 (.inl hk)
        · exact hk
      · refine ⟨_, ⟨old, ho, rfl⟩, by split <;> exact hf, by split <;> exact hd, ?_⟩
        rw [if_pos ⟨hf, hd⟩]
        exact keeps_merge.2 (.inr hk)
  · simp [or_and_right, exists_or]

theorem holds_foldl_addSelected {selected more : List Selected} :
    (Choice.ofList (more.foldl addSelected selected)).holds file index ↔
      (Choice.ofList selected).holds file index ∨ (Choice.ofList more).holds file index := by
  induction more generalizing selected with
  | nil => simp [Choice.ofList]
  | cons new more ih =>
    rw [List.foldl_cons, ih, holds_addSelected, or_assoc]
    simp [Choice.ofList, or_and_right, exists_or]

theorem keeps_foldl_addSelected {selected more : List Selected} :
    (Choice.ofList (more.foldl addSelected selected)).keeps file index field ↔
      (Choice.ofList selected).keeps file index field ∨ (Choice.ofList more).keeps file index field := by
  induction more generalizing selected with
  | nil => simp [Choice.ofList]
  | cons new more ih =>
    rw [List.foldl_cons, ih, keeps_addSelected, or_assoc]
    simp [Choice.ofList, or_and_right, exists_or]

theorem mem_wholeSelection {s : Selected} :
    s ∈ wholeSelection files ↔ InWhole files s.file s.definition ∧ s.fields = .all := by
  simp only [wholeSelection, List.mem_flatMap, Prod.exists, List.mem_zipIdx_iff_getElem?]
  constructor
  · rintro ⟨source, fileIndex, hs, hm⟩
    split at hm <;> rename_i hw
    · obtain ⟨⟨definition, index⟩, hd, hsel⟩ := List.mem_filterMap.1 hm
      rw [List.mem_zipIdx_iff_getElem?] at hd
      split at hsel <;> rename_i hsel'
      · obtain rfl := Option.some.inj hsel
        exact ⟨⟨isWhole_iff.1 hw, definition, by simp [definitionAt?, hs, hd], hsel'⟩, rfl⟩
      · cases hsel
    · cases hm
  · rintro ⟨⟨hw, definition, hd, hsel⟩, hfields⟩
    obtain ⟨source, hs, hd⟩ := Option.bind_eq_some_iff.1 hd
    refine ⟨source, s.file, hs, ?_⟩
    rw [if_pos (isWhole_iff.2 hw)]
    refine List.mem_filterMap.2 ⟨(definition, s.definition), List.mem_zipIdx_iff_getElem?.2 hd, ?_⟩
    rw [if_pos hsel, ← hfields]

theorem namedType_eq_ok_iff {source : SchemaFile} {directive : ResolvedImport} {type : String × FieldFilter}
    {s : Selected} : namedType files source directive type = .ok s ↔
      FirstFrom files directive.target type.1 s.file s.definition ∧ s.fields = type.2 := by
  rw [← findType_reachableFiles_iff, namedType]
  cases findType files (reachableFiles files directive.target) type.1 with
  | none => simp
  | some found =>
    obtain ⟨file, index⟩ := found
    obtain ⟨file', index', fields⟩ := s
    simp [eq_comm, and_assoc]

theorem ok_mem_namedTypes {s : Selected} :
    .ok s ∈ namedTypes files ↔ Named files s.file s.definition s.fields := by
  simp only [namedTypes, List.mem_flatMap, Prod.exists, List.mem_zipIdx_iff_getElem?]
  constructor
  · rintro ⟨source, importer, hs, hm⟩
    split at hm <;> rename_i hw
    · obtain ⟨directive, hd, hm⟩ := List.mem_flatMap.1 hm
      split at hm <;> rename_i hsel
      · cases hm
      · obtain ⟨⟨name, filter⟩, ht, hok⟩ := List.mem_map.1 hm
        obtain ⟨hfirst, rfl⟩ := namedType_eq_ok_iff.1 hok
        exact ⟨importer, source, isWhole_iff.1 hw, hs, directive, hd, _, hsel, name, ht, hfirst⟩
    · cases hm
  · rintro ⟨importer, source, hw, hs, directive, hd, types, hsel, name, ht, hfirst⟩
    refine ⟨source, importer, hs, ?_⟩
    rw [if_pos (isWhole_iff.2 hw)]
    refine List.mem_flatMap.2 ⟨directive, hd, ?_⟩
    rw [hsel]
    exact List.mem_map.2 ⟨(name, s.fields), ht, namedType_eq_ok_iff.2 ⟨hfirst, rfl⟩⟩

/-- The definitions that are asked for, before those they refer to. -/
def askedFor (files : List SchemaFile) : List Selected :=
  ((namedTypes files).filterMap Except.toOption).foldl addSelected (wholeSelection files)

theorem mem_filterMap_toOption {s : Selected} :
    s ∈ (namedTypes files).filterMap Except.toOption ↔ Named files s.file s.definition s.fields := by
  rw [← ok_mem_namedTypes, List.mem_filterMap]
  constructor
  · rintro ⟨result, hr, hs⟩
    cases result with
    | error => cases hs
    | ok s' => rwa [← Option.some.inj hs]
  · exact fun h => ⟨.ok s, h, rfl⟩

theorem holds_askedFor : (Choice.ofList (askedFor files)).holds file index ↔ Asked files file index := by
  rw [askedFor, holds_foldl_addSelected]
  refine or_congr ?_ ?_
  · simp only [Choice.ofList, mem_wholeSelection]
    constructor
    · rintro ⟨s, ⟨h, -⟩, rfl, rfl⟩
      exact h
    · exact fun h => ⟨⟨file, index, .all⟩, ⟨h, rfl⟩, rfl, rfl⟩
  · simp only [Choice.ofList, mem_filterMap_toOption]
    constructor
    · rintro ⟨s, h, rfl, rfl⟩
      exact ⟨_, h⟩
    · exact fun ⟨filter, h⟩ => ⟨⟨file, index, filter⟩, h, rfl, rfl⟩

theorem keeps_askedFor : (Choice.ofList (askedFor files)).keeps file index field ↔
    InWhole files file index ∨ ∃ filter, Named files file index filter ∧ filter.keeps field = true := by
  rw [askedFor, keeps_foldl_addSelected]
  refine or_congr ?_ ?_
  · simp only [Choice.ofList, mem_wholeSelection]
    constructor
    · rintro ⟨s, ⟨h, -⟩, rfl, rfl, -⟩
      exact h
    · exact fun h => ⟨⟨file, index, .all⟩, ⟨h, rfl⟩, rfl, rfl, keeps_all⟩
  · simp only [Choice.ofList, mem_filterMap_toOption]
    constructor
    · rintro ⟨s, h, rfl, rfl, hk⟩
      exact ⟨_, h, hk⟩
    · exact fun ⟨filter, h, hk⟩ => ⟨⟨file, index, filter⟩, h, rfl, rfl, hk⟩

/-! ## What these refer to -/

theorem type?_eq_some_iff {s : Selected} {type : TypeDefinition} : s.type? files = some type ↔
    ∃ whole, typeAt? files s.file s.definition = some whole ∧
      type = { whole with body := s.fields.applyTo whole.body } := by
  simp only [Selected.type?, Selected.definition?, typeAt?, definitionAt?, bind, pure]
  cases files[s.file]? with
  | none => simp
  | some source =>
    cases hd : source.definitions[s.definition]? with
    | none => simp [hd]
    | some definition => cases definition <;> simp [hd, restrict, Definition.type?, eq_comm]

theorem firstType_eq_some_iff {s : Selected} :
    firstType files name = some s ↔ FirstLoaded files name s.file s.definition ∧ s.fields = .all := by
  rw [← findType_range_iff, firstType]
  obtain ⟨file, index, fields⟩ := s
  cases findType files (List.range files.length) name with
  | none => simp
  | some found => simp [Prod.ext_iff, eq_comm, and_assoc]

theorem mem_definedNames :
    name ∈ definedNames files ↔ (∃ file index, DefinesAt files name file index) ∧ name ∉ builtInScalars := by
  simp only [definedNames, List.mem_filter, decide_eq_true_eq, List.mem_flatMap, List.mem_map,
    SchemaFile.types, List.mem_filterMap]
  refine and_congr_left fun _ => ?_
  constructor
  · rintro ⟨source, hs, type, ⟨definition, hd, ht⟩, hn⟩
    obtain ⟨file, hs⟩ := List.getElem?_of_mem hs
    obtain ⟨index, hd⟩ := List.getElem?_of_mem hd
    exact ⟨file, index, type, by simp [typeAt?, definitionAt?, hs, hd, ht], hn⟩
  · rintro ⟨file, index, type, ht, hn⟩
    obtain ⟨definition, hd, ht⟩ := Option.bind_eq_some_iff.1 ht
    obtain ⟨source, hs, hd⟩ := Option.bind_eq_some_iff.1 hd
    exact ⟨source, List.mem_of_getElem? hs, type, ⟨definition, List.mem_of_getElem? hd, ht⟩, hn⟩

theorem mem_referencesOfName {other : String} : other ∈ referencesOfName files name ↔
    ∃ file index type, FirstLoaded files name file index ∧ typeAt? files file index = some type ∧
      RefersTo (fun _ => True) other type.body := by
  have hall : ∀ body : TypeBody, other ∈ (FieldFilter.all.applyTo body).references ↔
      RefersTo (fun _ => True) other body := fun body => by
    simp only [mem_references_applyTo, keeps_all]
  unfold referencesOfName
  constructor
  · cases hf : firstType files name with
    | none => simp
    | some s =>
      obtain ⟨hfirst, hfields⟩ := firstType_eq_some_iff.1 hf
      cases ht : s.type? files with
      | none => simp [ht]
      | some type =>
        obtain ⟨whole, hw, rfl⟩ := type?_eq_some_iff.1 ht
        intro h
        simp only [Option.bind_some, ht, Option.map_some, Option.getD_some] at h
        rw [hfields] at h
        exact ⟨_, _, whole, hfirst, hw, (hall _).1 h⟩
  · rintro ⟨file, index, type, hfirst, ht, hr⟩
    have hf : firstType files name = some ⟨file, index, .all⟩ := firstType_eq_some_iff.2 ⟨hfirst, rfl⟩
    have htype : (⟨file, index, .all⟩ : Selected).type? files =
        some { type with body := FieldFilter.all.applyTo type.body } := type?_eq_some_iff.2 ⟨type, ht, rfl⟩
    simp only [hf, Option.bind_some, htype, Option.map_some, Option.getD_some]
    exact (hall _).2 hr

/-- The names of what is asked for, and the names this refers to. -/
def askedTypes (files : List SchemaFile) : List TypeDefinition := (askedFor files).filterMap (·.type? files)

theorem mem_askedTypes_names : name ∈ (askedTypes files).map (·.name) ↔ AskedName files name := by
  simp only [askedTypes, List.mem_map, List.mem_filterMap, type?_eq_some_iff]
  constructor
  · rintro ⟨_, ⟨s, hs, whole, hw, rfl⟩, hn⟩
    exact ⟨s.file, s.definition, holds_askedFor.1 ⟨s, hs, rfl, rfl⟩, whole, hw, hn⟩
  · rintro ⟨file, index, ha, type, ht, hn⟩
    obtain ⟨s, hs, rfl, rfl⟩ := holds_askedFor.2 ha
    exact ⟨_, ⟨s, hs, type, ht, rfl⟩, hn⟩

theorem mem_askedTypes_references : name ∈ (askedTypes files).flatMap (·.references) ↔
    ∃ s ∈ askedFor files, ∃ type, typeAt? files s.file s.definition = some type ∧
      RefersTo (s.fields.keeps · = true) name type.body := by
  simp only [askedTypes, List.mem_flatMap, List.mem_filterMap, type?_eq_some_iff]
  constructor
  · rintro ⟨_, ⟨s, hs, whole, hw, rfl⟩, hn⟩
    exact ⟨s, hs, whole, hw, mem_references_applyTo.1 hn⟩
  · rintro ⟨s, hs, type, ht, hn⟩
    exact ⟨_, ⟨s, hs, type, ht, rfl⟩, mem_references_applyTo.2 hn⟩

/-- What is asked for refers to a name, directly or through first definitions of other such names. -/
def Added (files : List SchemaFile) : String → Prop :=
  FoundFrom (definedNames files) (referencesOfName files) ((askedTypes files).flatMap (·.references))
    ((askedTypes files).map (·.name))

theorem exists_referredTypes_eq (files : List SchemaFile) :
    ∃ names : List String, referredTypes files (askedFor files) = names.filterMap (firstType files) ∧
      names.Nodup ∧ ∀ name, name ∈ names ↔ Added files name := by
  obtain ⟨found, he, hn, hf⟩ := depthFirst_eq_append (definedNames files) (referencesOfName files)
    ((askedTypes files).flatMap (·.references)) ((askedTypes files).map (·.name))
  refine ⟨found, ?_, hn, hf⟩
  have hdrop : referredTypes files (askedFor files) =
      ((depthFirst (definedNames files) (referencesOfName files) ((askedTypes files).flatMap (·.references))
        ((askedTypes files).map (·.name))).drop ((askedTypes files).map (·.name)).length).filterMap
          (firstType files) := rfl
  rw [hdrop, he, List.drop_left]

theorem mem_referredTypes {s : Selected} : s ∈ referredTypes files (askedFor files) ↔
    s.fields = .all ∧ ∃ name, Added files name ∧ FirstLoaded files name s.file s.definition := by
  obtain ⟨names, he, -, hf⟩ := exists_referredTypes_eq files
  simp only [he, List.mem_filterMap, hf, firstType_eq_some_iff]
  constructor
  · rintro ⟨name, ha, hfirst, hall⟩
    exact ⟨hall, name, ha, hfirst⟩
  · rintro ⟨hall, name, ha, hfirst⟩
    exact ⟨name, ha, hfirst, hall⟩

/-! ## Order -/

def Selected.place (s : Selected) : Nat × Nat := (s.file, s.definition)

/-- One place comes before another, in load order and then in the order of the file. -/
def Selected.Precedes (a b : Selected) : Prop :=
  a.file < b.file ∨ (a.file = b.file ∧ a.definition < b.definition)

theorem nodup_addSelected {selected : List Selected} {new : Selected}
    (h : (selected.map Selected.place).Nodup) : ((addSelected selected new).map Selected.place).Nodup := by
  unfold addSelected
  split <;> rename_i hany
  · have hplace : ∀ old : Selected, Selected.place (if old.file = new.file ∧ old.definition = new.definition
        then { old with fields := old.fields.merge new.fields } else old) = old.place := fun old => by
      split <;> rfl
    rw [List.map_map]
    simpa only [Function.comp_def, hplace] using h
  · rw [List.map_append, List.nodup_append]
    refine ⟨h, by simp, ?_⟩
    rintro a ha b hb rfl
    obtain ⟨old, ho, rfl⟩ := List.mem_map.1 ha
    have hb : old.place = new.place := by simpa using hb
    obtain ⟨hf, hd⟩ := Prod.mk.inj hb
    exact hany (List.any_eq_true.2 ⟨old, ho, by simp [hf, hd]⟩)

theorem nodup_foldl_addSelected {selected more : List Selected} (h : (selected.map Selected.place).Nodup) :
    ((more.foldl addSelected selected).map Selected.place).Nodup := by
  induction more generalizing selected with
  | nil => exact h
  | cons new more ih => exact ih (nodup_addSelected h)

theorem zipIdx_pairwise {α : Type} (l : List α) (start : Nat) :
    (l.zipIdx start).Pairwise (fun a b => a.2 < b.2) := by
  induction l generalizing start with
  | nil => simp
  | cons a l ih =>
    rw [List.zipIdx_cons, List.pairwise_cons]
    refine ⟨fun b hb => ?_, ih _⟩
    have hle := (List.mem_zipIdx hb).1
    exact hle

/-- What one file gives to the selection of whole files carries its index. -/
theorem file_of_mem_whole {source : SchemaFile} {file : Nat} {s : Selected}
    (h : s ∈ if isWhole files file then source.definitions.zipIdx.filterMap fun entry =>
      if isSelectable entry.1 then some (⟨file, entry.2, .all⟩ : Selected) else none else []) : s.file = file := by
  split at h
  · obtain ⟨entry, -, hsome⟩ := List.mem_filterMap.1 h
    split at hsome <;> cases hsome
    rfl
  · cases h

theorem nodup_wholeSelection : ((wholeSelection files).map Selected.place).Nodup := by
  rw [List.Nodup, List.pairwise_map, wholeSelection, List.pairwise_flatMap]
  constructor
  · -- in one file the definitions ascend
    rintro ⟨source, fileIndex⟩ -
    dsimp only
    split
    · refine (List.pairwise_filterMap.2 ((zipIdx_pairwise source.definitions 0).imp ?_))
      rintro ⟨a, i⟩ ⟨b, j⟩ hlt s hs t ht he
      dsimp only at hlt hs ht
      split at hs <;> cases hs
      split at ht <;> cases ht
      simp only [Selected.place, Prod.mk.injEq, true_and] at he
      omega
    · exact .nil
  · -- in two files the file indices differ
    refine (zipIdx_pairwise files 0).imp ?_
    rintro ⟨a, i⟩ ⟨b, j⟩ hlt s hs t ht he
    have hs := file_of_mem_whole hs
    have ht := file_of_mem_whole ht
    have he := congrArg Prod.fst he
    simp only [Selected.place, hs, ht] at he
    dsimp only at hlt
    omega

theorem Added.not_asked (h : Added files name) : ¬ AskedName files name :=
  fun ha => h.not_met (mem_askedTypes_names.2 ha)

/-- No place is selected twice: what is added has a name that nothing asked for has. -/
theorem nodup_selected : ((askedFor files ++ referredTypes files (askedFor files)).map Selected.place).Nodup := by
  rw [List.map_append, List.nodup_append]
  refine ⟨nodup_foldl_addSelected nodup_wholeSelection, ?_, ?_⟩
  · -- two added names have their first definitions at two places
    obtain ⟨names, he, hn, -⟩ := exists_referredTypes_eq files
    rw [he, List.Nodup, List.pairwise_map, List.pairwise_filterMap]
    refine hn.imp fun hne s hs t ht hplace => hne ?_
    obtain ⟨hfile, hindex⟩ := Prod.mk.inj hplace
    have hs := (firstType_eq_some_iff.1 hs).1.1.1
    have ht := (firstType_eq_some_iff.1 ht).1.1.1
    rw [hfile, hindex] at hs
    exact hs.name_eq ht
  · rintro _ hasked _ hadded rfl
    obtain ⟨s, hs, rfl⟩ := List.mem_map.1 hasked
    obtain ⟨t, ht, hplace⟩ := List.mem_map.1 hadded
    obtain ⟨hfile, hindex⟩ := Prod.mk.inj hplace
    obtain ⟨-, name, ha, hfirst⟩ := mem_referredTypes.1 ht
    refine ha.not_asked ⟨t.file, t.definition, ?_, hfirst.1.1⟩
    exact holds_askedFor.1 ⟨s, hs, hfile.symm, hindex.symm⟩

theorem before_iff {a b : Selected} : a.before b = true ↔
    a.file < b.file ∨ (a.file = b.file ∧ a.definition ≤ b.definition) := by
  simp [Selected.before]

/-- Sorted places without repetition ascend. -/
theorem pairwise_precedes {selected : List Selected} (h : (selected.map Selected.place).Nodup) :
    (selected.mergeSort Selected.before).Pairwise Selected.Precedes := by
  have hsorted : (selected.mergeSort Selected.before).Pairwise (fun a b => a.before b = true) := by
    refine List.pairwise_mergeSort (fun a b c => ?_) (fun a b => ?_) selected
    · simp only [before_iff]
      omega
    · simp only [Bool.or_eq_true, before_iff]
      omega
  have hnodup : (selected.mergeSort Selected.before).Pairwise (fun a b => a.place ≠ b.place) :=
    List.pairwise_map.1 (((List.mergeSort_perm selected Selected.before).map _).nodup_iff.2 h)
  refine (hsorted.and hnodup).imp fun ⟨hle, hne⟩ => ?_
  rcases before_iff.1 hle with hlt | ⟨hfile, hle⟩
  · exact .inl hlt
  · refine .inr ⟨hfile, Nat.lt_of_le_of_ne hle fun hindex => hne ?_⟩
    rw [Selected.place, Selected.place, hfile, hindex]

/-! ## The least closed choice -/

theorem holds_append {a b : List Selected} : (Choice.ofList (a ++ b)).holds file index ↔
    (Choice.ofList a).holds file index ∨ (Choice.ofList b).holds file index := by
  simp [Choice.ofList, or_and_right, exists_or]

theorem keeps_append {a b : List Selected} : (Choice.ofList (a ++ b)).keeps file index field ↔
    (Choice.ofList a).keeps file index field ∨ (Choice.ofList b).keeps file index field := by
  simp [Choice.ofList, or_and_right, exists_or]

theorem ofList_perm {a b : List Selected} (h : a.Perm b) : Choice.ofList a = Choice.ofList b := by
  simp only [Choice.ofList, h.mem_iff]

/-- What a choice refers to, one of its selections refers to. -/
theorem exists_refersTo {selected : List Selected} {body : TypeBody}
    (hh : (Choice.ofList selected).holds file index)
    (hr : RefersTo ((Choice.ofList selected).keeps file index) name body) :
    ∃ s ∈ selected, s.file = file ∧ s.definition = index ∧ RefersTo (s.fields.keeps · = true) name body := by
  obtain ⟨t, ht, hfile, hindex⟩ := hh
  cases body with
  | object | interface =>
    -- the selection that keeps the field need not be the one that was given
    rcases hr with hi | ⟨f, hf, ⟨s, hs, hsf, hsd, hk⟩, hm⟩
    · exact ⟨t, ht, hfile, hindex, .inl hi⟩
    · exact ⟨s, hs, hsf, hsd, .inr ⟨f, hf, hk, hm⟩⟩
  | scalar | union | enum | inputObject => exact ⟨t, ht, hfile, hindex, hr⟩

theorem holds_referred {first place : Nat} (ha : Added files name) (hf : FirstLoaded files name first place) :
    (Choice.ofList (askedFor files ++ referredTypes files (askedFor files))).holds first place ∧
      ∀ field, (Choice.ofList (askedFor files ++ referredTypes files (askedFor files))).keeps first place field := by
  have hm : (⟨first, place, .all⟩ : Selected) ∈ referredTypes files (askedFor files) :=
    mem_referredTypes.2 ⟨rfl, name, ha, hf⟩
  exact ⟨holds_append.2 (.inr ⟨_, hm, rfl, rfl⟩), fun field => keeps_append.2 (.inr ⟨_, hm, rfl, rfl, keeps_all⟩)⟩

/-- A name that the selection refers to and that nothing asked for has is added. -/
theorem added_of_refersTo {s : Selected} {type : TypeDefinition}
    (hs : s ∈ askedFor files ++ referredTypes files (askedFor files))
    (ht : typeAt? files s.file s.definition = some type)
    (hr : RefersTo (s.fields.keeps · = true) name type.body) (hb : name ∉ builtInScalars)
    (ha : ¬ AskedName files name) {first place : Nat} (hf : FirstLoaded files name first place) :
    Added files name := by
  have hknown : name ∈ definedNames files := mem_definedNames.2 ⟨⟨first, place, hf.1.1⟩, hb⟩
  have hmet : name ∉ (askedTypes files).map (·.name) := fun h => ha (mem_askedTypes_names.1 h)
  rcases List.mem_append.1 hs with hs | hs
  · exact .start (mem_askedTypes_references.2 ⟨s, hs, type, ht, hr⟩) hknown hmet
  · obtain ⟨-, before, hbefore, hfirst⟩ := mem_referredTypes.1 hs
    refine .step hbefore (mem_referencesOfName.2 ⟨_, _, type, hfirst, ht, ?_⟩) hknown hmet
    exact hr.mono fun _ _ => trivial

theorem closed_selected :
    Closed files (Choice.ofList (askedFor files ++ referredTypes files (askedFor files))) where
  whole h := ⟨holds_append.2 (.inl (holds_askedFor.2 (.inl h))),
    fun _ => keeps_append.2 (.inl (keeps_askedFor.2 (.inl h)))⟩
  named h := ⟨holds_append.2 (.inl (holds_askedFor.2 (.inr ⟨_, h⟩))),
    fun _ hk => keeps_append.2 (.inl (keeps_askedFor.2 (.inr ⟨_, h, hk⟩)))⟩
  referred hh ht hr hb ha hf := by
    obtain ⟨s, hs, rfl, rfl, hrefers⟩ := exists_refersTo hh hr
    exact holds_referred (added_of_refersTo hs ht hrefers hb ha hf) hf

variable {choice : Choice}

theorem Closed.holds_asked (hc : Closed files choice) (h : Asked files file index) : choice.holds file index :=
  h.elim (fun h => (hc.whole h).1) fun ⟨_, h⟩ => (hc.named h).1

theorem Closed.keeps_asked (hc : Closed files choice) {s : Selected} (hs : s ∈ askedFor files)
    (hk : s.fields.keeps field = true) : choice.keeps s.file s.definition field := by
  rcases keeps_askedFor.1 ⟨s, hs, rfl, rfl, hk⟩ with h | ⟨filter, h, hk⟩
  · exact (hc.whole h).2 field
  · exact (hc.named h).2 field hk

/-- Every closed choice has what is added. The induction is on the way the name is found. -/
theorem Closed.holds_added (hc : Closed files choice) (ha : Added files name) {first place : Nat}
    (hf : FirstLoaded files name first place) :
    choice.holds first place ∧ ∀ field, choice.keeps first place field := by
  induction ha generalizing first place with
  | start hs hk hm =>
    obtain ⟨s, hs, type, ht, hr⟩ := mem_askedTypes_references.1 hs
    exact hc.referred (hc.holds_asked (holds_askedFor.1 ⟨s, hs, rfl, rfl⟩)) ht
      (hr.mono fun _ => hc.keeps_asked hs) (mem_definedNames.1 hk).2
      (fun ha => hm (mem_askedTypes_names.2 ha)) hf
  | step _ hn hk hm ih =>
    obtain ⟨file, index, type, hfirst, ht, hr⟩ := mem_referencesOfName.1 hn
    exact hc.referred (ih hfirst).1 ht (hr.mono fun field _ => (ih hfirst).2 field) (mem_definedNames.1 hk).2
      (fun ha => hm (mem_askedTypes_names.2 ha)) hf

theorem Closed.selected_le (hc : Closed files choice) :
    Choice.ofList (askedFor files ++ referredTypes files (askedFor files)) ≤ choice := by
  constructor
  · rintro file index ⟨s, hs, rfl, rfl⟩
    rcases List.mem_append.1 hs with hs | hs
    · exact hc.holds_asked (holds_askedFor.1 ⟨s, hs, rfl, rfl⟩)
    · obtain ⟨-, name, ha, hf⟩ := mem_referredTypes.1 hs
      exact (hc.holds_added ha hf).1
  · rintro file index field ⟨s, hs, rfl, rfl, hk⟩
    rcases List.mem_append.1 hs with hs | hs
    · exact hc.keeps_asked hs hk
    · obtain ⟨-, name, ha, hf⟩ := mem_referredTypes.1 hs
      exact (hc.holds_added ha hf).2 field

theorem select_eq_ok {selected : List Selected} (h : select files = .ok selected) :
    selected = (askedFor files ++ referredTypes files (askedFor files)).mergeSort Selected.before := by
  unfold select at h
  dsimp only at h
  split at h
  · exact (Except.ok.inj h).symm
  · cases h

/-- Every reference that a selected definition keeps is built in, the name of a selected type, or defined
in no file. -/
theorem reference_is_selected {s : Selected} {type : TypeDefinition}
    (hs : s ∈ askedFor files ++ referredTypes files (askedFor files)) (ht : s.type? files = some type)
    (hn : name ∈ type.references) : name ∈ builtInScalars ∨
      (∃ t ∈ askedFor files ++ referredTypes files (askedFor files),
        ∃ other, t.type? files = some other ∧ other.name = name) ∨
      ∀ file index, ¬ DefinesAt files name file index := by
  obtain ⟨whole, hw, rfl⟩ := type?_eq_some_iff.1 ht
  by_cases hb : name ∈ builtInScalars
  · exact .inl hb
  · by_cases hd : ∃ file index, DefinesAt files name file index
    · refine .inr (.inl ?_)
      by_cases ha : AskedName files name
      · obtain ⟨file, index, hasked, other, ho, hname⟩ := ha
        obtain ⟨t, ht', rfl, rfl⟩ := holds_askedFor.2 hasked
        exact ⟨t, List.mem_append_left _ ht', _, type?_eq_some_iff.2 ⟨other, ho, rfl⟩, hname⟩
      · obtain ⟨file, index, hdef⟩ := hd
        obtain ⟨first, place, hf⟩ := exists_firstLoaded hdef
        have hadded := added_of_refersTo hs hw (mem_references_applyTo.1 hn) hb ha hf
        obtain ⟨⟨t, ht', rfl, rfl⟩, -⟩ := holds_referred hadded hf
        obtain ⟨other, ho, hname⟩ := hf.1.1
        exact ⟨t, ht', _, type?_eq_some_iff.2 ⟨other, ho, rfl⟩, hname⟩
    · exact .inr (.inr fun file index h => hd ⟨file, index, h⟩)

/-- What `select` gives is the least closed choice. Its places ascend, so each is there once, and whatever
its definitions still refer to is built in, selected or undefined. -/
theorem select_isLeast {selected : List Selected} (h : select files = .ok selected) :
    IsLeast {choice | Closed files choice} (Choice.ofList selected) ∧
      selected.Pairwise Selected.Precedes ∧
      ∀ s ∈ selected, ∀ type, s.type? files = some type → ∀ name ∈ type.references,
        name ∈ builtInScalars ∨ (∃ t ∈ selected, ∃ other, t.type? files = some other ∧ other.name = name) ∨
          ∀ file index, ¬ DefinesAt files name file index := by
  obtain rfl := select_eq_ok h
  rw [ofList_perm (List.mergeSort_perm _ _)]
  refine ⟨⟨closed_selected, fun choice hc => Closed.selected_le hc⟩, pairwise_precedes nodup_selected, ?_⟩
  intro s hs type ht name hn
  simp only [List.mem_mergeSort] at hs ⊢
  exact reference_is_selected hs ht hn

/-- A shelf file that imports the root as a whole, and a root that asks for one field of a book. -/
def cyclicFiles : List SchemaFile :=
  let object (name : String) (fields : List Field) : Definition :=
    .type ⟨⟨1, 1⟩, none, name, [], .object [] fields⟩
  let field (name target : String) : Field := ⟨none, name, [], .named target, []⟩
  [⟨⟨"a"⟩, ["a"], "", [object "Query" [field "book" "Book"]],
     [⟨1, .types [("Book", .only ["author"])], ⟨1, 1⟩⟩]⟩,
   ⟨⟨"b"⟩, ["b"], "", [object "Shelf" [], object "Author" [field "books" "Book"],
      object "Book" [field "author" "Author", field "shelf" "Shelf"]], [⟨0, .wholeFile, ⟨1, 1⟩⟩]⟩]

def cyclicSelection : List Selected := [⟨0, 0, .all⟩, ⟨1, 1, .all⟩, ⟨1, 2, .only ["author"]⟩]

/-- The shelf stays out: only a field that is filtered out refers to it. -/
theorem cyclicSelection_isLeast : select cyclicFiles = .ok cyclicSelection ∧
    IsLeast {choice | Closed cyclicFiles choice} (Choice.ofList cyclicSelection) := by
  have h : select cyclicFiles = .ok cyclicSelection := by cbv
  exact ⟨h, (select_isLeast h).1⟩

end SchemaFragments.Import
