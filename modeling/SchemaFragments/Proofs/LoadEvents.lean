import SchemaFragments.Proofs.ByteOffsets
import SchemaFragments.Proofs.EmptyTexts
/-!
# What loading meets

On its way along the directives the loader meets files that it reads for the first time, and directives whose target it
cannot read. Here these events are said by recursion on the directives (`Walks`), with what goes wrong at each of them. A
file with a fault is walked through like any other: `follow_walks`.
-/

namespace SchemaFragments.Import

open Document (Definition ParseError)

/-! ## Events -/

/-- A path to be read, and the directive that asks for it. The root is asked for by none. -/
structure Lead where
  site : Option Site
  path : Path

/-- The directives of a file that is read under a path, in line order. -/
def leadsOf (path : Path) (contents : String) : List Lead :=
  (directives contents).map fun (line, directive) =>
    ⟨some ⟨path, contents, ⟨line, directive.column⟩⟩, path.directory.join ⟨directive.path⟩⟩

inductive Event where
  /-- A file is read for the first time. -/
  | file (path : Path) (contents : String)
  /-- What a directive asks for cannot be read. -/
  | unreadable (lead : Lead) (error : FileError)

/-- How the text of a file is taken. -/
abbrev Reading := String → Except ParseError (List Definition)

/-- What is wrong with a file; a torn text is told in another way. -/
def fault (read : Reading) (path : Path) (contents : String) : List Problem :=
  match read contents with
  | .error (.malformed position complaints) => [.malformed path contents position complaints]
  | .error .tornBlockString | .ok _ => []

namespace Event

/-- What goes wrong at an event. -/
def problems (read : Reading) : Event → List Problem
  | file path contents => fault read path contents
  | unreadable ⟨some site, path⟩ error => [.unreadable site path error]
  | unreadable ⟨none, path⟩ error => [.unreadableRoot path error]

def file? : Event → Option (Path × String)
  | file path contents => some (path, contents)
  | unreadable .. => none

def unreadable? : Event → Option (Lead × FileError)
  | file .. => none
  | unreadable lead error => some (lead, error)

end Event

variable {tree : FileTree} {root path : Path} {known : List Location} {leads : List Lead}
  {visited : List (Location × Path)} {events : List Event} {contents : String} {identity : Location}

/-! ## Depth first, with what is met -/

/-- Following leads in order: a file that is met for the first time comes with all that its own directives lead to, in
front of what the later leads lead to. -/
inductive Walks (tree : FileTree) : List Location → List Lead → List (Location × Path) → List Event → Prop
  | done {known : List Location} : Walks tree known [] [] []
  | unreadable {known : List Location} {lead : Lead} {leads : List Lead} {error : FileError}
      {visited : List (Location × Path)} {events : List Event} :
      tree.readAt lead.path = .error error → Walks tree known leads visited events →
      Walks tree known (lead :: leads) visited (.unreadable lead error :: events)
  | again {known : List Location} {lead : Lead} {leads : List Lead} {identity : Location} {contents : String}
      {visited : List (Location × Path)} {events : List Event} :
      tree.readAt lead.path = .ok (identity, contents) → identity ∈ known →
      Walks tree known leads visited events → Walks tree known (lead :: leads) visited events
  | first {known : List Location} {lead : Lead} {leads : List Lead} {identity : Location} {contents : String}
      {inner after : List (Location × Path)} {met later : List Event} :
      tree.readAt lead.path = .ok (identity, contents) → identity ∉ known →
      Walks tree (known ++ [identity]) (leadsOf lead.path contents) inner met →
      Walks tree (known ++ [identity] ++ inner.map (·.1)) leads after later →
      Walks tree known (lead :: leads) ((identity, lead.path) :: inner ++ after)
        (.file lead.path contents :: met ++ later)

theorem map_path_leadsOf : (leadsOf path contents).map (·.path) = targetPaths path contents := by
  simp [leadsOf, targetPaths, Function.comp_def]

/-- The text that is read under the path of a file. -/
def textAt? (tree : FileTree) (entry : Location × Path) : Option (Path × String) :=
  match tree.readAt entry.2 with
  | .error _ => none
  | .ok (_, contents) => some (entry.2, contents)

/-- What there is to say of a lead whose path cannot be read. -/
def failure? (tree : FileTree) (lead : Lead) : Option (Lead × FileError) :=
  match tree.readAt lead.path with
  | .error error => some (lead, error)
  | .ok _ => none

namespace Walks

theorem split {before after : List Lead} (h : Walks tree known (before ++ after) visited events) :
    ∃ first second met later, visited = first ++ second ∧ events = met ++ later ∧ Walks tree known before first met ∧
      Walks tree (known ++ first.map (·.1)) after second later := by
  induction before generalizing known visited events with
  | nil => exact ⟨[], visited, [], events, rfl, rfl, .done, by simpa using h⟩
  | cons lead before ih =>
    rw [List.cons_append] at h
    cases h with
    | unreadable hr hrest =>
      obtain ⟨first, second, met, later, rfl, rfl, h1, h2⟩ := ih hrest
      exact ⟨first, second, _, later, rfl, rfl, .unreadable hr h1, h2⟩
    | again hr hk hrest =>
      obtain ⟨first, second, met, later, rfl, rfl, h1, h2⟩ := ih hrest
      exact ⟨first, second, met, later, rfl, rfl, .again hr hk h1, h2⟩
    | @first _ _ _ identity contents inner _ innerMet _ hr hk hinner hrest =>
      obtain ⟨first, second, met, later, rfl, rfl, h1, h2⟩ := ih hrest
      exact ⟨(identity, lead.path) :: inner ++ first, second, .file lead.path contents :: innerMet ++ met, later,
        by simp, by simp, .first hr hk hinner h1, by simpa [List.append_assoc] using h2⟩

/-- The files are read in the order in which they are loaded. -/
theorem reads (h : Walks tree known leads visited events) : Reads tree known (leads.map (·.path)) visited := by
  induction h with
  | done => exact .done
  | unreadable hr _ ih => exact .unreadable hr ih
  | again hr hk _ ih => exact .again hr hk ih
  | first hr hk _ _ ihi iha => exact .first hr hk (map_path_leadsOf ▸ ihi) iha

/-- There is one event for each file that is visited, in the same order. -/
theorem filterMap_file (h : Walks tree known leads visited events) :
    events.filterMap Event.file? = visited.filterMap (textAt? tree) := by
  induction h with
  | done => rfl
  | unreadable _ _ ih => exact ih
  | again _ _ _ ih => exact ih
  | first hr _ _ _ ihi iha =>
    simp only [List.cons_append, List.filterMap_cons, Event.file?, textAt?, hr, List.filterMap_append, ihi, iha]

/-- There is one event for each lead whose path cannot be read, and for each such directive of a file that is met. -/
theorem perm_unreadable (h : Walks tree known leads visited events) :
    (events.filterMap Event.unreadable?).Perm (leads.filterMap (failure? tree) ++
      (events.filterMap Event.file?).flatMap fun found => (leadsOf found.1 found.2).filterMap (failure? tree)) := by
  induction h with
  | done => exact .nil
  | unreadable hr _ ih =>
    simp only [List.filterMap_cons, Event.unreadable?, Event.file?, failure?, hr]
    exact ih.cons _
  | again hr _ _ ih =>
    simp only [List.filterMap_cons, failure?, hr]
    exact ih
  | first hr _ _ _ ihi iha =>
    simp only [List.cons_append, List.filterMap_cons, Event.unreadable?, Event.file?, failure?, hr,
      List.filterMap_append, List.flatMap_cons, List.flatMap_append]
    -- the later leads are counted in front of the directives of the file that is met
    refine (ihi.append iha).trans ?_
    rw [List.append_assoc]
    exact ((List.perm_append_comm_assoc ..).append_left _).trans (List.perm_append_comm_assoc ..)

end Walks

/-! ## What the loader meets -/

def Pending.lead (pending : Pending) : Lead := ⟨some pending.site, pending.path⟩

theorem map_lead_pendingOf {importer : Nat} :
    (pendingOf importer path contents).map (·.lead) = leadsOf path contents := by
  simp [pendingOf, leadsOf, Pending.lead, Function.comp_def]

/-- A file has the definitions that its text is taken for. -/
def SchemaFile.AsTaken (file : SchemaFile) : Prop := file.definitions = (taken file.contents).toOption.getD []

namespace Loader

variable {loader loader' final : Loader} {pending : List Pending}

/-- A file that is added has the definitions that its text is taken for, and is reported with what is wrong with that. -/
theorem of_addFile (h : loader.addFile path identity contents = some (loader', pending)) :
    loader'.files = loader.files ++ [⟨path, identity, contents, (taken contents).toOption.getD [], []⟩] ∧
      loader'.problems = loader.problems ++ fault taken path contents ∧
        pending = pendingOf loader.files.length path contents := by
  rw [addFile_eq, Option.map_eq_some_iff] at h
  obtain ⟨⟨definitions, problems⟩, hrecord, hadded⟩ := h
  obtain ⟨rfl, rfl⟩ := Prod.mk.inj hadded
  rw [fault]
  revert hrecord
  rcases taken contents with (⟨position, complaints⟩ | _) | document <;> rintro ⟨⟩ <;> exact ⟨rfl, rfl, rfl⟩

theorem asTaken_addFile (h : loader.addFile path identity contents = some (loader', pending))
    (hold : ∀ file ∈ loader.files, file.AsTaken) : ∀ file ∈ loader'.files, file.AsTaken := by
  obtain ⟨hfiles, -, -⟩ := of_addFile h
  rw [hfiles]
  exact List.forall_mem_append.2 ⟨hold, List.forall_mem_singleton.2 rfl⟩

theorem asTaken_link {next : Pending} {target : Nat} (hold : ∀ file ∈ loader.files, file.AsTaken) :
    ∀ file ∈ (loader.link next target).files, file.AsTaken := by
  intro file hm
  obtain ⟨index, hi⟩ := List.getElem?_of_mem hm
  rw [getElem?_link, Option.map_eq_some_iff] at hi
  obtain ⟨old, hi, rfl⟩ := hi
  have htaken := hold old (List.mem_of_getElem? hi)
  split <;> exact htaken

theorem asTaken_follow (h : follow tree pending loader = some final) (hold : ∀ file ∈ loader.files, file.AsTaken) :
    ∀ file ∈ final.files, file.AsTaken := by
  fun_induction follow tree pending loader with
  | case1 loader =>
    obtain rfl := Option.some.inj h
    exact hold
  | case2 loader next rest error hr ih => exact ih h hold
  | case3 loader next rest identity contents hr hknown ih => exact ih h (asTaken_link hold)
  | case4 => cases h
  | case5 loader next rest identity contents hr hknown loader' more ha ih =>
    exact ih h (asTaken_link (asTaken_addFile ha hold))

/-- Following directives meets what recursion on them meets, and finds wrong with it what there is. -/
theorem follow_walks (h : follow tree pending loader = some final) :
    ∃ visited events, Walks tree loader.identities (pending.map (·.lead)) visited events ∧
      final.problems = loader.problems ++ events.flatMap (Event.problems taken) := by
  fun_induction follow tree pending loader with
  | case1 loader =>
    obtain rfl := Option.some.inj h
    exact ⟨[], [], .done, by simp⟩
  | case2 loader next rest error hr ih =>
    obtain ⟨visited, events, hwalk, hproblems⟩ := ih h
    refine ⟨visited, .unreadable next.lead error :: events, .unreadable hr hwalk, ?_⟩
    rw [hproblems, List.flatMap_cons, List.append_assoc]
    rfl
  | case3 loader next rest identity contents hr hknown ih =>
    obtain ⟨visited, events, hwalk, hproblems⟩ := ih h
    rw [identities_link] at hwalk
    exact ⟨visited, events, .again hr hknown hwalk, hproblems⟩
  | case4 => cases h
  | case5 loader next rest identity contents hr hknown loader' more ha ih =>
    obtain ⟨visited, events, hwalk, hproblems⟩ := ih h
    obtain ⟨-, hadded, rfl⟩ := of_addFile ha
    rw [identities_link, identities_addFile ha, List.map_append, map_lead_pendingOf] at hwalk
    -- the new file's directives are followed before those that were waiting
    obtain ⟨inner, after, met, later, rfl, rfl, hinner, hafter⟩ := hwalk.split
    refine ⟨(identity, next.path) :: inner ++ after, .file next.path contents :: met ++ later,
      .first hr hknown hinner hafter, ?_⟩
    have hlinked : (loader'.link next loader.files.length).problems = loader'.problems := rfl
    rw [hproblems, hlinked, hadded, List.cons_append, List.flatMap_cons, List.append_assoc]
    rfl

end Loader

end SchemaFragments.Import
