import SchemaFragments.Import.Combined
import SchemaFragments.Proofs.LoadEvents
import SchemaFragments.Proofs.Selection
/-!
# What loading reports

All that goes wrong while files are loaded is reported, in the order in which it is met, and then all names that directives
of whole files ask for in vain. `failures_reported`: these are the failures of the files as they are written exactly if the
loader takes none of them for something else.
-/

namespace SchemaFragments.Import

open Document (Definition ParseError)

variable {tree : FileTree} {root path : Path} {files : List SchemaFile} {events : List Event} {read : Reading}
  {contents name : String} {identity : Location} {target index : Nat} {file : SchemaFile}

/-! ## Names that are not found -/

/-- The names that a directive asks for. -/
def Selection.names : Selection → List String
  | .wholeFile => []
  | .types asked => asked.map (·.1)

/-- There is a type with a name in a file, or in one that it reaches. -/
def Found (files : List SchemaFile) (target : Nat) (name : String) : Prop :=
  ∃ file index, Reaches files target file ∧ DefinesAt files name file index

theorem found_iff : Found files target name ↔ (findType files (reachableFiles files target) name).isSome = true := by
  rw [Option.isSome_iff_exists]
  constructor
  · rintro ⟨file, index, hreaches, hdefines⟩
    by_contra hnone
    have hlookIn : ∀ other ∈ reachableFiles files target,
        (do return (other, ← (← files[other]?).typeIndex? name) : Option (Nat × Nat)) = none := by
      rw [← List.findSome?_eq_none_iff]
      exact Option.not_isSome_iff_eq_none.1 (mt Option.isSome_iff_exists.1 hnone)
    obtain ⟨first, hfirst⟩ := exists_firstIn hdefines
    have hsome := lookIn_eq_some_iff.2 ⟨rfl, hfirst⟩
    rw [hlookIn file (mem_reachableFiles.2 hreaches)] at hsome
    cases hsome
  · rintro ⟨⟨file, index⟩, hfound⟩
    obtain ⟨hfirst, hreaches, -⟩ := findType_reachableFiles_iff.1 hfound
    exact ⟨file, index, hreaches, hfirst.1⟩

instance : Decidable (Found files target name) := decidable_of_iff _ found_iff.symm

instance : Decidable (Whole files index) := decidable_of_iff _ isWhole_iff

/-- What there is to say of the names that a directive asks for in vain. -/
def unfoundOf (files : List SchemaFile) (file : SchemaFile) (link : ResolvedImport) : List Problem :=
  (link.selection.names.filter fun name => ¬ Found files link.target name).map fun name =>
    .missingType ⟨file.path, file.contents, link.position⟩ name (((files[link.target]?).map (·.path)).getD ⟨""⟩)

/-- The names that directives of whole files ask for in vain: by file in load order, by line, and as they are listed. -/
def unfound (files : List SchemaFile) : List Problem :=
  files.zipIdx.flatMap fun (file, index) =>
    if Whole files index then file.imports.flatMap (unfoundOf files file) else []

def error? : Except Problem Selected → Option Problem
  | .error problem => some problem
  | .ok _ => none

theorem error?_namedType {link : ResolvedImport} (type : String × FieldFilter) : error? (namedType files file link type) =
    if Found files link.target type.1 then none
    else some (.missingType ⟨file.path, file.contents, link.position⟩ type.1
      (((files[link.target]?).map (·.path)).getD ⟨""⟩)) := by
  rw [namedType]
  cases hfind : findType files (reachableFiles files link.target) type.1 with
  | none => rw [if_neg (mt found_iff.1 (by simp [hfind])), error?]
  | some found => rw [if_pos (found_iff.2 (by simp [hfind])), error?]

theorem unfoundOf_types {link : ResolvedImport} {types : List (String × FieldFilter)} (h : link.selection = .types types) :
    unfoundOf files file link = (types.map (namedType files file link)).filterMap error? := by
  rw [unfoundOf, h, Selection.names]
  clear h
  induction types with
  | nil => rfl
  | cons type types ih =>
    rw [List.map_cons, List.map_cons, List.filterMap_cons, error?_namedType, List.filter_cons, ← ih]
    by_cases hfound : Found files link.target type.1 <;> simp [hfound]

theorem filterMap_namedTypes (files : List SchemaFile) : (namedTypes files).filterMap error? = unfound files := by
  rw [namedTypes, unfound, List.filterMap_flatMap]
  congr 1
  funext entry
  obtain ⟨file, index⟩ := entry
  dsimp only
  by_cases hwhole : Whole files index
  · rw [if_pos hwhole, if_pos (isWhole_iff.2 hwhole), List.filterMap_flatMap]
    congr 1
    funext link
    cases hselection : link.selection with
    | wholeFile => rw [unfoundOf, hselection]; rfl
    | types types => exact (unfoundOf_types hselection).symm
  · rw [if_neg hwhole, if_neg (mt isWhole_iff.1 hwhole)]
    rfl

/-! ## Reports -/

/-- A result reports problems if it fails with just these. One that does not fail reports none. -/
inductive Reports : Except LoadError Source → List Problem → Prop
  | loaded (source : Source) : Reports (.ok source) []
  | failed (problem : Problem) (problems : List Problem) :
    Reports (.error (.problems (problem :: problems))) (problem :: problems)

theorem Reports.functional {result : Except LoadError Source} {problems problems' : List Problem}
    (h : Reports result problems) (h' : Reports result problems') : problems = problems' := by
  cases h <;> cases h' <;> rfl

/-- What is wrong with files and directives, and without that what is wrong with names. -/
def stages (problems : List Problem) (files : List SchemaFile) : List Problem :=
  if problems = [] then unfound files else problems

theorem reports_load {loader : Loader} (h : loadFiles tree root = .ok loader) :
    Reports (load tree root) (stages loader.problems loader.files) := by
  unfold load stages
  rw [h]
  cases hproblems : loader.problems with
  | cons problem problems =>
    simp only [bind, Except.bind, hproblems, List.isEmpty_cons, Bool.not_false, if_true, reduceCtorEq, if_false]
    exact .failed problem problems
  | nil =>
    have hselect : select loader.files = if (unfound loader.files).isEmpty then
        .ok ((askedFor loader.files ++ referredTypes loader.files (askedFor loader.files)).mergeSort Selected.before)
        else .error (unfound loader.files) := by
      rw [← filterMap_namedTypes]
      rfl
    simp only [bind, Except.bind, hproblems, List.isEmpty_nil, Bool.not_true, Bool.false_eq_true, if_false, hselect, if_true]
    cases unfound loader.files with
    | nil => exact .loaded _
    | cons problem problems => exact .failed problem problems

/-! ## What is reported -/

def SchemaFile.readBy (read : Reading) (file : SchemaFile) : SchemaFile :=
  { file with definitions := (read file.contents).toOption.getD [] }

/-- What there is to report of the files that are loaded, when their texts are taken in some way. -/
def report (read : Reading) (files : List SchemaFile) (events : List Event) : List Problem :=
  stages (events.flatMap (Event.problems read)) (files.map (·.readBy read))

/-- What is met on the way from a root. -/
structure Met (tree : FileTree) (root : Path) (files : List SchemaFile) (events : List Event) : Prop where
  loaded : LoadedFrom tree root files
  /-- Depth first, from the root on. -/
  walk : Walks tree [] [⟨none, root⟩] (files.map (·.entry)) events
  /-- Each loaded file is met once. -/
  once : events.filterMap Event.file? = files.map fun file => (file.path, file.contents)
  /-- Each directive of a loaded file whose target cannot be read is met once, whatever else goes wrong. -/
  unreadable : (events.filterMap Event.unreadable?).Perm
    (files.flatMap fun file => (leadsOf file.path file.contents).filterMap (failure? tree))
  /-- No directive asks twice for a name. -/
  names : ∀ file ∈ files, ∀ link ∈ file.imports, link.selection.names.Nodup

/-- A directive whose path stands at a position of a text. -/
def DirectiveAt (contents : String) (position : Position) (directive : Directive) : Prop :=
  ∃ index line, (Text.lines contents.toList)[index]? = some line ∧ readDirective line = some directive ∧
    position = ⟨index + 1, directive.column⟩ ∧ QuotedPath line directive

/-- A problem is shown in the file that has it: where the text cannot be parsed, or at the path of a directive. -/
inductive ShownIn (file : SchemaFile) : Problem → Position → Prop
  | malformed (position : Position) (complaints : List Document.Complaint) :
    ShownIn file (.malformed file.path file.contents position complaints) position
  | unreadable {position : Position} {directive : Directive} (error : FileError) :
    DirectiveAt file.contents position directive →
      ShownIn file (.unreadable ⟨file.path, file.contents, position⟩ (file.path.directory.join ⟨directive.path⟩) error) position
  | missingType {position : Position} {directive : Directive} {name : String} (imported : Path) :
    DirectiveAt file.contents position directive → name ∈ directive.selection.names →
      ShownIn file (.missingType ⟨file.path, file.contents, position⟩ name imported) position

theorem ShownIn.source {problem : Problem} {position : Position} (h : ShownIn file problem position) :
    problem.message.source = some ⟨file.path, some (.ofText file.contents position none)⟩ := by
  cases h <;> rfl

/-- What is reported of the files as they are written is reported of them as they are taken. -/
structure ReadAlike (files : List SchemaFile) (events : List Event) : Prop where
  faults : ∀ file ∈ files, fault meaning file.path file.contents = fault taken file.path file.contents
  names : events.flatMap (Event.problems taken) = [] →
    unfound (files.map (·.readBy meaning)) = unfound (files.map (·.readBy taken))

/-! ### Events of a run -/

theorem map_fst_addType (type : String) (filter : FieldFilter) (types : List (String × FieldFilter)) :
    (addType type filter types).map (·.1) =
      if type ∈ types.map (·.1) then types.map (·.1) else types.map (·.1) ++ [type] := by
  induction types with
  | nil => rfl
  | cons first types ih =>
    obtain ⟨other, kept⟩ := first
    rw [addType]
    by_cases hsame : other = type
    · simp [hsame]
    · rw [if_neg hsame, List.map_cons, ih]
      by_cases hm : type ∈ types.map (·.1) <;> simp [hm, Ne.symm hsame]

theorem nodup_names_addType {type : String} {filter : FieldFilter} {types : List (String × FieldFilter)}
    (h : (types.map (·.1)).Nodup) : ((addType type filter types).map (·.1)).Nodup := by
  rw [map_fst_addType]
  split
  · exact h
  · rename_i hnew
    exact List.nodup_append.2 ⟨h, by simp, by rintro a ha b hb rfl; exact hnew (List.mem_singleton.1 hb ▸ ha)⟩

theorem nodup_names_foldl (items : List (List Char)) {types : List (String × FieldFilter)} (h : (types.map (·.1)).Nodup) :
    ((items.foldl (fun types item => addType (readItem item).1 (readItem item).2 types) types).map (·.1)).Nodup := by
  induction items generalizing types with
  | nil => exact h
  | cons item items ih => exact ih (nodup_names_addType h)

theorem nodup_names_of_readDirective {line : List Char} {directive : Directive} (h : readDirective line = some directive) :
    directive.selection.names.Nodup := by
  obtain ⟨rest, -, hhead⟩ := exists_head_of_readDirective h
  cases hselection : directive.selection with
  | wholeFile => exact .nil
  | types types =>
    obtain ⟨names, -, rfl⟩ := readHead_eq_types (hselection ▸ hhead)
    exact nodup_names_foldl _ List.nodup_nil

theorem directiveAt_of_mem {number : Nat} {directive : Directive} (h : (number, directive) ∈ directives contents) :
    DirectiveAt contents ⟨number, directive.column⟩ directive := by
  obtain ⟨⟨line, index⟩, hm, hline⟩ := List.mem_filterMap.1 h
  obtain ⟨_, hread, heq⟩ := Option.map_eq_some_iff.1 hline
  obtain ⟨rfl, rfl⟩ := Prod.mk.inj heq
  exact ⟨index, line, List.mem_zipIdx_iff_getElem?.1 hm, hread, rfl, quotedPath_of_readDirective hread⟩

/-- A link of a loaded file comes from a directive. -/
theorem LoadedFrom.directive_of_link (h : LoadedFrom tree root files) (hfile : file ∈ files) {link : ResolvedImport}
    (hlink : link ∈ file.imports) :
    ∃ directive, DirectiveAt file.contents link.position directive ∧ link.selection = directive.selection := by
  rw [h.imports file hfile] at hlink
  obtain ⟨⟨number, directive⟩, hm, hresolve⟩ := List.mem_filterMap.1 hlink
  dsimp only at hresolve
  split at hresolve
  · obtain rfl := Option.some.inj hresolve
    exact ⟨directive, directiveAt_of_mem hm, rfl⟩
  · cases hresolve

theorem met_of_walk (hloaded : LoadedFrom tree root files) (hroot : tree.readAt root = .ok (identity, contents))
    (hwalk : Walks tree [] [⟨none, root⟩] (files.map (·.entry)) events) : Met tree root files events := by
  have hfiles : events.filterMap Event.file? = files.map fun file => (file.path, file.contents) := by
    have htext : ∀ file ∈ files, textAt? tree file.entry = some (file.path, file.contents) := fun file hfile => by
      rw [textAt?, SchemaFile.entry, hloaded.read file hfile]
    rw [hwalk.filterMap_file, List.filterMap_map, ← List.filterMap_eq_map']
    exact List.filterMap_congr htext
  constructor
  case loaded => exact hloaded
  case walk => exact hwalk
  case once => exact hfiles
  case unreadable =>
    have hperm := hwalk.perm_unreadable
    rw [hfiles, List.flatMap_map, List.filterMap_cons_none (by rw [failure?, hroot])] at hperm
    exact hperm
  case names =>
    intro file hfile link hlink
    obtain ⟨directive, ⟨index, line, -, hread, -⟩, hselection⟩ := hloaded.directive_of_link hfile hlink
    exact hselection ▸ nodup_names_of_readDirective hread

theorem mem_unfound {problem : Problem} (h : problem ∈ unfound files) : ∃ file ∈ files, ∃ link ∈ file.imports,
    ∃ name ∈ link.selection.names, ∃ imported,
      problem = .missingType ⟨file.path, file.contents, link.position⟩ name imported := by
  obtain ⟨⟨file, index⟩, hm, h⟩ := List.mem_flatMap.1 h
  dsimp only at h
  split at h
  · obtain ⟨link, hlink, h⟩ := List.mem_flatMap.1 h
    obtain ⟨name, hname, rfl⟩ := List.mem_map.1 h
    exact ⟨file, List.mem_of_getElem? (List.mem_zipIdx_iff_getElem?.1 hm), link, hlink, name, (List.mem_filter.1 hname).1,
      _, rfl⟩
  · cases h

theorem unfound_ne {problems : List Problem} (h : ∀ site name imported, .missingType site name imported ∉ problems)
    (hne : problems ≠ []) : unfound files ≠ problems := by
  intro heq
  obtain ⟨problem, hm⟩ := List.exists_mem_of_ne_nil _ hne
  obtain ⟨file, -, link, -, name, -, imported, rfl⟩ := mem_unfound (heq ▸ hm)
  exact h _ _ _ hm

/-- The problems of a first stage are no problems of the second one. -/
theorem stages_eq_iff {problems problems' : List Problem} {files files' : List SchemaFile}
    (h : ∀ site name imported, .missingType site name imported ∉ problems)
    (h' : ∀ site name imported, .missingType site name imported ∉ problems') :
    stages problems files = stages problems' files' ↔
      problems = problems' ∧ (problems' = [] → unfound files = unfound files') := by
  rw [stages, stages]
  constructor
  · intro heq
    split at heq <;> split at heq
    · rename_i hnil hnil'
      exact ⟨hnil.trans hnil'.symm, fun _ => heq⟩
    · rename_i hne
      exact absurd heq (unfound_ne h' hne)
    · rename_i hne hnil
      exact absurd heq.symm (unfound_ne h hne)
    · rename_i hne hne'
      exact ⟨heq, fun hnil => absurd hnil hne'⟩
  · rintro ⟨rfl, hnames⟩
    split
    · exact hnames ‹_›
    · rfl

/-! ### Places of problems -/

theorem mem_fault {problem : Problem} : problem ∈ fault read path contents ↔
    ∃ position complaints, read contents = .error (.malformed position complaints) ∧
      problem = .malformed path contents position complaints := by
  rw [fault]
  rcases read contents with (⟨position, complaints⟩ | _) | document <;> simp

theorem fault_eq_nil_iff : fault read path contents = [] ↔
    ∀ position complaints, read contents ≠ .error (.malformed position complaints) := by
  rw [fault]
  rcases read contents with (⟨position, complaints⟩ | _) | document <;> simp

theorem fault_congr {read' : Reading} (h : ∀ position complaints, read contents = .error (.malformed position complaints) ↔
    read' contents = .error (.malformed position complaints)) : fault read path contents = fault read' path contents := by
  by_cases hfault : ∃ position complaints, read contents = .error (.malformed position complaints)
  · obtain ⟨position, complaints, hread⟩ := hfault
    rw [fault, fault, hread, (h position complaints).1 hread]
  · have hnone : ∀ position complaints, read contents ≠ .error (.malformed position complaints) :=
      fun position complaints hread => hfault ⟨position, complaints, hread⟩
    rw [fault_eq_nil_iff.2 hnone, fault_eq_nil_iff.2 fun position complaints => mt (h position complaints).2 (hnone _ _)]

namespace Met

variable {lead : Lead} {error : FileError} {problem : Problem}

theorem file_mem_iff (h : Met tree root files events) :
    .file path contents ∈ events ↔ ∃ file ∈ files, file.path = path ∧ file.contents = contents := by
  have hfile : Event.file path contents ∈ events ↔ (path, contents) ∈ events.filterMap Event.file? := by
    refine ⟨fun hm => List.mem_filterMap.2 ⟨_, hm, rfl⟩, fun hm => ?_⟩
    obtain ⟨event, hm, hevent⟩ := List.mem_filterMap.1 hm
    cases event with
    | file => cases hevent; exact hm
    | unreadable => cases hevent
  rw [hfile, h.once]
  simp

theorem lead_of_mem (h : Met tree root files events) (hm : .unreadable lead error ∈ events) :
    ∃ file ∈ files, lead ∈ leadsOf file.path file.contents := by
  have hlisted : (lead, error) ∈ events.filterMap Event.unreadable? := List.mem_filterMap.2 ⟨_, hm, rfl⟩
  obtain ⟨file, hfile, hlisted⟩ := List.mem_flatMap.1 (h.unreadable.mem_iff.1 hlisted)
  obtain ⟨other, hother, hfailure⟩ := List.mem_filterMap.1 hlisted
  rw [failure?] at hfailure
  split at hfailure
  · cases hfailure
    exact ⟨file, hfile, hother⟩
  · cases hfailure

theorem shownIn_of_mem (h : Met tree root files events) (hm : problem ∈ events.flatMap (Event.problems read)) :
    ∃ file ∈ files, ∃ position, ShownIn file problem position := by
  obtain ⟨event, hevent, hm⟩ := List.mem_flatMap.1 hm
  cases event with
  | file path contents =>
    obtain ⟨file, hfile, rfl, rfl⟩ := h.file_mem_iff.1 hevent
    obtain ⟨position, complaints, -, rfl⟩ := mem_fault.1 hm
    exact ⟨file, hfile, position, .malformed position complaints⟩
  | unreadable lead error =>
    obtain ⟨file, hfile, hlead⟩ := h.lead_of_mem hevent
    obtain ⟨⟨number, directive⟩, hdirective, rfl⟩ := List.mem_map.1 hlead
    obtain rfl := List.mem_singleton.1 hm
    exact ⟨file, hfile, _, .unreadable error (directiveAt_of_mem hdirective)⟩

/-- Every problem is shown in a loaded file. -/
theorem shownIn_of_mem_report (h : Met tree root files events) (hm : problem ∈ report read files events) :
    ∃ file ∈ files, ∃ position, ShownIn file problem position := by
  rw [report, stages] at hm
  split at hm
  · obtain ⟨_, hread, link, hlink, name, hname, imported, rfl⟩ := mem_unfound hm
    obtain ⟨file, hfile, rfl⟩ := List.mem_map.1 hread
    obtain ⟨directive, hdirective, hselection⟩ := h.loaded.directive_of_link hfile hlink
    exact ⟨file, hfile, link.position, .missingType imported hdirective (hselection ▸ hname)⟩
  · exact h.shownIn_of_mem hm

/-! ### Two ways to take the texts -/

theorem mem_problems_iff (read : Reading) {position : Position} {complaints : List Document.Complaint} (hevent : .file path contents ∈ events) :
    .malformed path contents position complaints ∈ events.flatMap (Event.problems read) ↔
      read contents = .error (.malformed position complaints) := by
  constructor
  · intro hm
    obtain ⟨event, -, hm⟩ := List.mem_flatMap.1 hm
    cases event with
    | file path' contents' =>
      obtain ⟨_, _, hread, heq⟩ := mem_fault.1 hm
      cases heq
      exact hread
    | unreadable lead error =>
      obtain ⟨_ | site, other⟩ := lead <;> cases List.mem_singleton.1 hm
  · exact fun hread => List.mem_flatMap.2 ⟨_, hevent, mem_fault.2 ⟨position, complaints, hread, rfl⟩⟩

theorem missingType_notMem {site : Site} {imported : Path} :
    .missingType site name imported ∉ events.flatMap (Event.problems read) := by
  intro hm
  obtain ⟨event, -, hm⟩ := List.mem_flatMap.1 hm
  cases event with
  | file path contents =>
    obtain ⟨_, _, -, heq⟩ := mem_fault.1 hm
    cases heq
  | unreadable lead error =>
    obtain ⟨_ | site, other⟩ := lead <;> cases List.mem_singleton.1 hm

/-- A file that cannot be parsed is reported. -/
theorem malformed_mem_report {position : Position} {complaints : List Document.Complaint} (h : Met tree root files events)
    (hfile : file ∈ files) (hread : read file.contents = .error (.malformed position complaints)) :
    .malformed file.path file.contents position complaints ∈ report read files events := by
  have hm := (mem_problems_iff read (h.file_mem_iff.2 ⟨file, hfile, rfl, rfl⟩)).2 hread
  rw [report, stages, if_neg (List.ne_nil_of_mem hm)]
  exact hm

theorem root_mem (h : Met tree root files events) (hroot : tree.readAt root = .ok (identity, contents)) :
    ∃ file ∈ files, file.path = root ∧ file.contents = contents := by
  obtain ⟨file, hhead, rfl⟩ := Option.map_eq_some_iff.1 h.loaded.root_first
  have hfile := List.mem_of_head? hhead
  have hread := (h.loaded.read file hfile).symm.trans hroot
  exact ⟨file, hfile, rfl, (Prod.mk.inj (Except.ok.inj hread)).2⟩

theorem flatMap_problems_eq_iff (h : Met tree root files events) {read' : Reading} :
    events.flatMap (Event.problems read) = events.flatMap (Event.problems read') ↔
      ∀ file ∈ files, fault read file.path file.contents = fault read' file.path file.contents := by
  constructor
  · intro heq file hfile
    have hevent := h.file_mem_iff.2 ⟨file, hfile, rfl, rfl⟩
    refine fault_congr fun position complaints => ?_
    rw [← mem_problems_iff read hevent, heq, mem_problems_iff read' hevent]
  · intro hfault
    refine List.flatMap_congr fun event hevent => ?_
    cases event with
    | file path contents =>
      obtain ⟨file, hfile, rfl, rfl⟩ := h.file_mem_iff.1 hevent
      exact hfault file hfile
    | unreadable lead error => obtain ⟨_ | site, other⟩ := lead <;> rfl

theorem report_eq_iff (h : Met tree root files events) :
    report meaning files events = report taken files events ↔ ReadAlike files events := by
  rw [report, report, stages_eq_iff (fun _ _ _ => missingType_notMem) (fun _ _ _ => missingType_notMem),
    h.flatMap_problems_eq_iff]
  exact ⟨fun halike => ⟨halike.1, halike.2⟩, fun halike => ⟨halike.faults, halike.names⟩⟩

end Met

/-- Texts that are passed over just when they hold nothing are taken for what they say. -/
theorem readAlike_of_emptyAlike (h : ∀ file ∈ files, EmptyAlike file.contents) : ReadAlike files events := by
  have hsame : ∀ file ∈ files, meaning file.contents = taken file.contents := fun file hfile =>
    ((taken_eq_meaning_iff _).2 ((emptyAlike_iff _).1 (h file hfile))).symm
  constructor
  case faults => exact fun file hfile => by rw [fault, fault, hsame file hfile]
  case names =>
    refine fun _ => congrArg unfound (List.map_congr_left fun file hfile => ?_)
    rw [SchemaFile.readBy, SchemaFile.readBy, hsame file hfile]

/-! ## The whole of it -/

theorem exists_met (hroot : tree.readAt root = .ok (identity, contents))
    (htorn : ∀ location text, (location, Entry.file (some text)) ∈ tree.entries →
      Document.parse text ≠ .error .tornBlockString) :
    ∃ loader events, loadFiles tree root = .ok loader ∧ Met tree root loader.files events ∧
      loader.problems = events.flatMap (Event.problems taken) ∧ ∀ file ∈ loader.files, file.AsTaken := by
  obtain ⟨⟨loader, pending⟩, ha⟩ : ∃ next, Loader.empty.addFile root identity contents = some next :=
    Loader.exists_addFile (htorn _ _ (FileTree.readAt_entry hroot))
  obtain ⟨final, hf⟩ := Loader.exists_follow tree pending loader htorn
  have hloaded := loadedFrom_of_follow hroot ha hf
  obtain ⟨visited, met, hwalk, hproblems⟩ := Loader.follow_walks hf
  obtain ⟨-, hadded, rfl⟩ := Loader.of_addFile ha
  rw [Loader.identities_addFile ha, map_lead_pendingOf] at hwalk
  have hall : Walks tree [] [⟨none, root⟩] ((identity, root) :: visited ++ []) (.file root contents :: met ++ []) :=
    .first hroot (by simp) hwalk .done
  rw [(hloaded.preorder _).1 hall.reads] at hall
  refine ⟨final, _, ?_, met_of_walk hloaded hroot hall, ?_, ?_⟩
  · simp only [loadFiles, hroot, ha, Option.bind_some, hf]
  · rw [hproblems, hadded, List.append_nil, List.flatMap_cons]
    rfl
  · exact Loader.asTaken_follow hf (Loader.asTaken_addFile ha (by simp [Loader.empty]))

/-- From a readable root, and where no text is torn, all that goes wrong is reported, once and where it is. This is what is
wrong with the files as they are written exactly if none of them is taken for something else. -/
theorem failures_reported (hroot : tree.readAt root = .ok (identity, contents))
    (htorn : ∀ location text, (location, Entry.file (some text)) ∈ tree.entries →
      Document.parse text ≠ .error .tornBlockString) :
    ∃ files events, Met tree root files events ∧
      (∀ read, ∀ problem ∈ report read files events, ∃ file ∈ files, ∃ position, ShownIn file problem position ∧
        problem.message.source = some ⟨file.path, some (.ofText file.contents position none)⟩) ∧
      Reports (load tree root) (report taken files events) ∧
      (Reports (load tree root) (report meaning files events) ↔ ReadAlike files events) := by
  obtain ⟨loader, events, hload, hmet, hproblems, htaken⟩ := exists_met hroot htorn
  have hread : loader.files.map (·.readBy taken) = loader.files := by
    refine (List.map_congr_left fun file hfile => ?_).trans (List.map_id _)
    rw [SchemaFile.readBy, ← htaken file hfile]
    rfl
  have hreports : Reports (load tree root) (report taken loader.files events) := by
    rw [report, ← hproblems, hread]
    exact reports_load hload
  refine ⟨loader.files, events, hmet, fun read problem hm => ?_, hreports, ?_⟩
  · obtain ⟨file, hfile, position, hshown⟩ := hmet.shownIn_of_mem_report hm
    exact ⟨file, hfile, position, hshown, hshown.source⟩
  · rw [← hmet.report_eq_iff]
    exact ⟨fun hmeaning => hmeaning.functional hreports, fun heq => heq ▸ hreports⟩

/-! ## Some trees -/

def brokenText : String := "# import Book from \"gone\"\n#import \"b\"\ntype \x7b\n"

def brokenOther : String := "#import \"a\"\n\x7d\n"

/-- A root and a file that import each other, and neither can be parsed; another file is missing. -/
def brokenTree : FileTree where
  workingDirectory := ["w"]
  entries := [(["w"], .directory), (["w", "a"], .file (some brokenText)), (["w", "b"], .file (some brokenOther))]

theorem brokenTree_files {location : Location} {text : String} (hm : (location, Entry.file (some text)) ∈ brokenTree.entries) :
    text = brokenText ∨ text = brokenOther := by
  simp only [brokenTree, List.mem_cons, Prod.mk.injEq, Entry.file.injEq, Option.some.injEq, reduceCtorEq, and_false,
    false_or, or_false, List.not_mem_nil] at hm
  exact hm.imp And.right And.right

theorem brokenTree_reported : brokenTree.readAt ⟨"a"⟩ = .ok (["w", "a"], brokenText) ∧
    ∃ files events, Met brokenTree ⟨"a"⟩ files events ∧ Reports (load brokenTree ⟨"a"⟩) (report meaning files events) ∧
      .malformed ⟨"a"⟩ brokenText ⟨3, 6⟩ [.unexpectedToken .punctuator "\x7b"] ∈ report meaning files events := by
  have hroot : brokenTree.readAt ⟨"a"⟩ = .ok (["w", "a"], brokenText) := by cbv
  have htext : Document.parse brokenText = .error (.malformed ⟨3, 6⟩ [.unexpectedToken .punctuator "\x7b"]) := by cbv
  have hother : Document.parse brokenOther = .error (.malformed ⟨2, 1⟩ [.unexpectedToken .punctuator "\x7d"]) := by cbv
  have halike (text : String) (h : text = brokenText ∨ text = brokenOther) : EmptyAlike text := by
    rcases h with rfl | rfl <;> exact (emptyAlike_iff _).2 (by decide +kernel)
  obtain ⟨files, events, hmet, -, -, hiff⟩ := failures_reported hroot fun location text hm => by
    rcases brokenTree_files hm with rfl | rfl
    · rw [htext]
      simp
    · rw [hother]
      simp
  refine ⟨hroot, files, events, hmet, hiff.2 (readAlike_of_emptyAlike fun file hfile => ?_), ?_⟩
  · exact halike _ (brokenTree_files (FileTree.readAt_entry (hmet.loaded.read file hfile)))
  · obtain ⟨file, hfile, hpath, hcontents⟩ := hmet.root_mem hroot
    have hmeaning : meaning brokenText = Document.parse brokenText := if_neg (by decide +kernel)
    have hread : meaning file.contents = .error (.malformed ⟨3, 6⟩ [.unexpectedToken .punctuator "\x7b"]) := by
      rw [hcontents, hmeaning, htext]
    rw [← hpath, ← hcontents]
    exact hmet.malformed_mem_report hfile hread

/-- A text that is passed over is not parsed, whatever it says. -/
theorem exists_load_of_passed (hread : tree.readAt root = .ok (identity, contents)) (hdirectives : directives contents = [])
    (hpassed : holdsDefinitions contents = false) : ∃ source, load tree root = .ok source := by
  have hload : loadFiles tree root = .ok ⟨[⟨root, identity, contents, [], []⟩], []⟩ := by
    simp [loadFiles, hread, Loader.addFile, hdirectives, hpassed, Loader.empty, Loader.follow]
  have hnone : unfound [⟨root, identity, contents, [], []⟩] = [] := by simp [unfound]
  have hreports := reports_load hload
  rw [stages, if_pos rfl, hnone] at hreports
  generalize load tree root = result at hreports
  cases hreports with
  | loaded source => exact ⟨source, rfl⟩

/-- Comments that are ended by carriage returns, and braces behind them. -/
def hiddenText : String := "# books\r\x7d\n# books\r\x7d\n"

def hiddenTree : FileTree where
  workingDirectory := ["w"]
  entries := [(["w"], .directory), (["w", "a"], .file (some hiddenText))]

/-- The file cannot be parsed, and nothing is reported. -/
theorem hiddenTree_not_reported : (∃ source, load hiddenTree ⟨"a"⟩ = .ok source) ∧
    Document.parse hiddenText = .error (.malformed ⟨2, 1⟩ [.unexpectedToken .punctuator "\x7d"]) ∧
    ¬ ∃ files events, Met hiddenTree ⟨"a"⟩ files events ∧ Reports (load hiddenTree ⟨"a"⟩) (report meaning files events) := by
  have hread : hiddenTree.readAt ⟨"a"⟩ = .ok (["w", "a"], hiddenText) := by cbv
  have hparse : Document.parse hiddenText = .error (.malformed ⟨2, 1⟩ [.unexpectedToken .punctuator "\x7d"]) := by cbv
  obtain ⟨source, hload⟩ := exists_load_of_passed hread (by decide +kernel) (by decide +kernel)
  refine ⟨⟨source, hload⟩, hparse, ?_⟩
  rintro ⟨files, events, hmet, hreports⟩
  have hmeaning : meaning hiddenText = Document.parse hiddenText := if_neg (by decide +kernel)
  obtain ⟨file, hfile, -, hcontents⟩ := hmet.root_mem hread
  have hm := hmet.malformed_mem_report hfile (hcontents ▸ hmeaning.trans hparse)
  rw [hload] at hreports
  generalize report meaning files events = problems at hm hreports
  cases hreports
  cases hm

end SchemaFragments.Import
