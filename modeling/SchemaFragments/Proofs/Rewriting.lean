import SchemaFragments.Proofs.AlikeFiles
import SchemaFragments.Proofs.Reprinting
/-!
# Rewritten trees

A schema that is loaded from a tree is loaded from another one as well, with the same combined text, if every path
leads to the same place there and every loaded file has an alike text: the same definitions at any places, and its
directives one after the other, each written as one or as several with the same path that ask for the same together.
-/

namespace SchemaFragments.Import

open Document

variable {tree tree' : FileTree} {root path : Path} {known : List Location} {paths paths' : List Path}
  {identity : Location} {contents : String} {definitions : List Definition} {visited : List (Location × Path)}

/-! ## Loading without problems -/

/-- What the text of a file is read as. -/
def readText (contents : String) : Except ParseError (List Definition) :=
  if holdsDefinitions contents then Document.parse contents else .ok []

/-- Nothing is wrong with a file. -/
structure SchemaFile.Sound (tree : FileTree) (file : SchemaFile) : Prop where
  definitions : readText file.contents = .ok file.definitions
  targets : ∀ path ∈ targetPaths file.path file.contents, ∃ found, tree.readAt path = .ok found

namespace Loader

variable {loader loader' final : Loader} {pending : List Pending}

theorem addFile_of_readText (loader : Loader) (path : Path) (identity : Location)
    (h : readText contents = .ok definitions) : loader.addFile path identity contents =
      some (⟨loader.files ++ [⟨path, identity, contents, definitions, []⟩], loader.problems⟩,
        pendingOf loader.files.length path contents) := by
  unfold readText at h
  simp only [addFile, h, List.append_nil]
  rfl

theorem readText_of_addFile (h : loader.addFile path identity contents = some (loader', pending))
    (hnone : loader'.problems = []) : loader.problems = [] ∧ ∃ definitions, readText contents = .ok definitions ∧
      loader'.files = loader.files ++ [⟨path, identity, contents, definitions, []⟩] := by
  simp only [addFile] at h
  split at h <;> simp only [Option.some.injEq, Prod.mk.injEq, reduceCtorEq] at h <;> obtain ⟨rfl, -⟩ := h
  · rename_i definitions hread
    exact ⟨by simpa using hnone, definitions, hread, rfl⟩
  · simp at hnone

theorem problems_of_follow (h : follow tree pending loader = some final) (hnone : final.problems = []) :
    loader.problems = [] := by
  fun_induction follow tree pending loader with
  | case1 =>
    obtain rfl := Option.some.inj h
    exact hnone
  | case2 _ _ _ _ _ ih => simpa using ih h
  | case3 _ _ _ _ _ _ _ ih => exact ih h
  | case4 => cases h
  | case5 _ _ _ _ _ _ _ _ _ ha ih => exact (readText_of_addFile ha (ih h)).1

/-- All files that are loaded so far are as they should be, apart from directives still to be followed. -/
def SoundUpTo (tree : FileTree) (pending : List Pending) (loader : Loader) : Prop :=
  ∀ file ∈ loader.files, readText file.contents = .ok file.definitions ∧
    ∀ path ∈ targetPaths file.path file.contents,
      path ∈ pending.map (·.path) ∨ ∃ found, tree.readAt path = .ok found

theorem soundUpTo_link {next : Pending} {target : Nat} (h : SoundUpTo tree pending loader) :
    SoundUpTo tree pending (loader.link next target) := by
  intro file hf
  obtain ⟨index, hindex⟩ := List.getElem?_of_mem hf
  rw [getElem?_link, Option.map_eq_some_iff] at hindex
  obtain ⟨old, hold, rfl⟩ := hindex
  have hsound := h old (List.mem_of_getElem? hold)
  split <;> exact hsound

theorem SoundUpTo.tail {next : Pending} {rest : List Pending} (h : SoundUpTo tree (next :: rest) loader)
    (hnext : ∃ found, tree.readAt next.path = .ok found) : SoundUpTo tree rest loader := by
  intro file hf
  obtain ⟨hread, htargets⟩ := h file hf
  refine ⟨hread, fun path hp => ?_⟩
  rcases htargets path hp with hm | hfound
  · rcases List.mem_cons.1 hm with rfl | hm
    · exact .inr hnext
    · exact .inl hm
  · exact .inr hfound

theorem sound_follow (h : follow tree pending loader = some final) (hnone : final.problems = [])
    (hsound : SoundUpTo tree pending loader) : ∀ file ∈ final.files, file.Sound tree := by
  fun_induction follow tree pending loader with
  | case1 loader =>
    obtain rfl := Option.some.inj h
    intro file hf
    obtain ⟨hread, htargets⟩ := hsound file hf
    exact ⟨hread, fun path hp => (htargets path hp).resolve_left (by simp)⟩
  | case2 loader next rest error hr ih =>
    have hproblems := problems_of_follow h hnone
    simp at hproblems
  | case3 loader next rest identity contents hr hknown ih => exact ih h (soundUpTo_link (hsound.tail ⟨_, hr⟩))
  | case4 => cases h
  | case5 loader next rest identity contents hr hknown loader' more ha ih =>
    have hproblems := problems_of_follow h hnone
    obtain ⟨-, definitions, hread, hfiles⟩ := readText_of_addFile ha hproblems
    obtain ⟨-, rfl⟩ := addFile_eq_some ha
    refine ih h (soundUpTo_link fun file hf => ?_)
    rw [hfiles] at hf
    rw [List.map_append, map_path_pendingOf]
    rcases List.mem_append.1 hf with hf | hf
    · obtain ⟨hold, htargets⟩ := hsound.tail ⟨_, hr⟩ file hf
      exact ⟨hold, fun path hp => (htargets path hp).imp_left (List.mem_append_right _)⟩
    · rw [List.mem_singleton.1 hf]
      exact ⟨hread, fun path hp => .inl (List.mem_append_left _ hp)⟩

end Loader

/-- Loading without problems gives what can be reached, and nothing is wrong with any of it. -/
theorem loads_of_loadFiles {loader : Loader} (h : loadFiles tree root = .ok loader) (hnone : loader.problems = []) :
    LoadedFrom tree root loader.files ∧ ∀ file ∈ loader.files, file.Sound tree := by
  unfold loadFiles at h
  split at h
  · cases h
  rename_i identity contents hroot
  split at h
  · rename_i final hfollow
    obtain rfl := Except.ok.inj h
    obtain ⟨⟨first, pending⟩, ha, hfollow⟩ := Option.bind_eq_some_iff.1 hfollow
    refine ⟨loadedFrom_of_follow hroot ha hfollow, Loader.sound_follow hfollow hnone fun file hf => ?_⟩
    obtain ⟨-, definitions, hread, hfiles⟩ := Loader.readText_of_addFile ha (Loader.problems_of_follow hfollow hnone)
    obtain ⟨-, rfl⟩ := Loader.addFile_eq_some ha
    obtain rfl : file = ⟨root, identity, contents, definitions, []⟩ := by simpa [hfiles, Loader.empty] using hf
    rw [map_path_pendingOf]
    exact ⟨hread, fun path hp => .inl hp⟩
  · cases h

theorem problems_of_load {source : Source} {loader : Loader} (h : load tree root = .ok source)
    (hload : loadFiles tree root = .ok loader) : loader.problems = [] := by
  unfold load at h
  rw [hload] at h
  simp only [bind, Except.bind] at h
  split at h
  · cases h
  · rename_i hempty
    simpa using hempty

theorem load_of_loadFiles {loader : Loader} {selected : List Selected} (h : loadFiles tree root = .ok loader)
    (hnone : loader.problems = []) (hs : select loader.files = .ok selected) :
    load tree root = .ok (Source.combine loader.files selected) := by
  simp [load, h, hnone, hs, bind, Except.bind, pure, Except.pure]

/-! ## Following without problems -/

theorem Reads.append {first second : List (Location × Path)} (h : Reads tree known paths first)
    (h' : Reads tree (known ++ first.map (·.1)) paths' second) : Reads tree known (paths ++ paths') (first ++ second) := by
  induction h with
  | done => simpa using h'
  | unreadable hr _ ih => exact .unreadable hr (ih h')
  | again hr hk _ ih => exact .again hr hk (ih h')
  | @first known path paths identity contents inner after hr hk hinner _ _ iha =>
    have hafter := iha (by simpa using h')
    rw [List.append_assoc]
    exact .first hr hk hinner hafter

/-- What follows a path that can be read. -/
theorem Reads.of_cons (h : Reads tree known (path :: paths) visited) (hr : tree.readAt path = .ok (identity, contents)) :
    (identity ∈ known ∧ Reads tree known paths visited) ∨ (identity ∉ known ∧ ∃ inner after,
      visited = (identity, path) :: inner ++ after ∧ Reads tree (known ++ [identity]) (targetPaths path contents) inner ∧
        Reads tree (known ++ [identity] ++ inner.map (·.1)) paths after) := by
  cases h with
  | unreadable hr' =>
    rw [hr] at hr'
    cases hr'
  | again hr' hk hrest =>
    rw [hr] at hr'
    cases hr'
    exact .inl ⟨hk, hrest⟩
  | first hr' hk hinner hrest =>
    rw [hr] at hr'
    cases hr'
    exact .inr ⟨hk, _, _, rfl, hinner, hrest⟩

/-- Where every path can be read, and what is read is as it should be, following directives adds no problems. -/
theorem Loader.exists_follow_of_reads {pending : List Pending} {loader : Loader}
    (h : Reads tree loader.identities (pending.map (·.path)) visited)
    (hpaths : ∀ next ∈ pending, ∃ found, tree.readAt next.path = .ok found)
    (hvisited : ∀ entry ∈ visited, ∀ contents, tree.readAt entry.2 = .ok (entry.1, contents) →
      (∃ definitions, readText contents = .ok definitions) ∧
        ∀ path ∈ targetPaths entry.2 contents, ∃ found, tree.readAt path = .ok found) :
    ∃ final, loader.follow tree pending = some final ∧ final.problems = loader.problems := by
  fun_induction Loader.follow tree pending loader generalizing visited with
  | case1 loader => exact ⟨loader, rfl, rfl⟩
  | case2 loader next rest error hr ih =>
    obtain ⟨found, hfound⟩ := hpaths next (by simp)
    rw [hr] at hfound
    cases hfound
  | case3 loader next rest identity contents hr hknown ih =>
    rcases h.of_cons hr with ⟨-, hrest⟩ | ⟨hnew, -⟩
    · rw [← Loader.identities_link loader next (loader.identities.idxOf identity)] at hrest
      exact ih hrest (fun next hn => hpaths next (.tail _ hn)) hvisited
    · exact absurd hknown hnew
  | case4 loader next rest identity contents hr hknown ha =>
    rcases h.of_cons hr with ⟨hk, -⟩ | ⟨-, inner, after, rfl, -⟩
    · exact absurd hk hknown
    · obtain ⟨⟨definitions, hread⟩, -⟩ := hvisited (identity, next.path) (by simp) contents hr
      rw [addFile_of_readText loader next.path identity hread] at ha
      cases ha
  | case5 loader next rest identity contents hr hknown loader' more ha ih =>
    rcases h.of_cons hr with ⟨hk, -⟩ | ⟨-, inner, after, rfl, hinner, hafter⟩
    · exact absurd hk hknown
    obtain ⟨⟨definitions, hread⟩, htargets⟩ := hvisited (identity, next.path) (by simp) contents hr
    have hids := identities_addFile ha
    rw [addFile_of_readText loader next.path identity hread] at ha
    obtain ⟨rfl, rfl⟩ := Prod.mk.inj (Option.some.inj ha)
    have hmore : targetPaths next.path contents = (pendingOf loader.files.length next.path contents).map (·.path) :=
      map_path_pendingOf.symm
    rw [← hids, hmore] at hinner
    rw [← hids] at hafter
    -- the directives of the new file are followed first
    have hreads := hinner.append hafter
    rw [← List.map_append, ← Loader.identities_link _ next loader.files.length] at hreads
    refine ih hreads (fun other ho => ?_) fun entry he => hvisited entry (by simp at he ⊢; tauto)
    rcases List.mem_append.1 ho with ho | ho
    · refine htargets other.path ?_
      rw [hmore]
      exact List.mem_map_of_mem ho
    · exact hpaths other (.tail _ ho)

/-- What is read from a root is loaded without problems if nothing is wrong with it. -/
theorem exists_loadFiles (h : Reads tree [] [root] visited) (hroot : ∃ found, tree.readAt root = .ok found)
    (hvisited : ∀ entry ∈ visited, ∀ contents, tree.readAt entry.2 = .ok (entry.1, contents) →
      (∃ definitions, readText contents = .ok definitions) ∧
        ∀ path ∈ targetPaths entry.2 contents, ∃ found, tree.readAt path = .ok found) :
    ∃ loader, loadFiles tree root = .ok loader ∧ loader.problems = [] := by
  obtain ⟨⟨identity, contents⟩, hroot⟩ := hroot
  rcases h.of_cons hroot with ⟨hk, -⟩ | ⟨-, inner, after, rfl, hinner, -⟩
  · cases hk
  obtain ⟨⟨definitions, hread⟩, htargets⟩ := hvisited (identity, root) (by simp) contents hroot
  have ha : Loader.empty.addFile root identity contents =
      some (⟨[⟨root, identity, contents, definitions, []⟩], []⟩, pendingOf 0 root contents) :=
    Loader.addFile_of_readText Loader.empty root identity hread
  have hpaths : targetPaths root contents = (pendingOf 0 root contents).map (·.path) := map_path_pendingOf.symm
  rw [hpaths] at hinner htargets
  have hfirst : Reads tree (Loader.mk [⟨root, identity, contents, definitions, []⟩] []).identities
      ((pendingOf 0 root contents).map (·.path)) inner := hinner
  obtain ⟨final, hfollow, hnone⟩ := Loader.exists_follow_of_reads hfirst
    (fun next hn => htargets next.path (List.mem_map_of_mem hn)) fun entry he => hvisited entry (by simp [he])
  refine ⟨final, ?_, hnone⟩
  simp only [loadFiles, hroot, ha, Option.bind_some, hfollow]

/-! ## Directives in several parts -/

/-- Some directives for the path of another one, which ask for the same together. -/
structure Directive.SplitInto (directive : Directive) (parts : List Directive) : Prop where
  path : ∀ part ∈ parts, part.path = directive.path
  requests {Q : Selection → Prop} (hQ : Request Q) : Q directive.selection ↔ ∃ part ∈ parts, Q part.selection

theorem Directive.splitInto_self (directive : Directive) : directive.SplitInto [directive] :=
  ⟨by simp, fun _ => by simp⟩

theorem Directive.forall₂_splitInto_self (directives : List Directive) :
    List.Forall₂ Directive.SplitInto directives (directives.map ([·])) :=
  List.forall₂_map_right_iff.2 (List.forall₂_same.2 fun directive _ => directive.splitInto_self)

theorem Directive.SplitInto.exists_parts {directive : Directive} {parts : List Directive}
    (h : directive.SplitInto parts) (front back : List Directive) : ∃ all,
      List.Forall₂ Directive.SplitInto (front ++ directive :: back) all ∧ front ++ parts ++ back = all.flatten := by
  have hflatten (directives : List Directive) : (directives.map ([·])).flatten = directives :=
    List.flatMap_singleton' directives
  refine ⟨front.map ([·]) ++ parts :: back.map ([·]), ?_, ?_⟩
  · exact List.rel_append (forall₂_splitInto_self front) (.cons h (forall₂_splitInto_self back))
  · rw [List.flatten_append, List.flatten_cons, hflatten, hflatten, List.append_assoc]

theorem Directive.SplitInto.ne_nil {directive : Directive} {parts : List Directive} (h : directive.SplitInto parts) :
    parts ≠ [] := by
  obtain ⟨part, hp, -⟩ := (h.requests .anything).1 trivial
  exact List.ne_nil_of_mem hp

/-- Texts that are read as the same definitions, where each directive of the first is one or several of the second. -/
structure AlikeTexts (text text' : String) : Prop where
  reads {definitions : List Definition} : readText text = .ok definitions →
    ∃ definitions', readText text' = .ok definitions' ∧
      definitions.map Definition.unplaced = definitions'.map Definition.unplaced
  split : ∃ parts, List.Forall₂ Directive.SplitInto ((directives text).map (·.2)) parts ∧
    (directives text').map (·.2) = parts.flatten

theorem AlikeTexts.refl (text : String) : AlikeTexts text text :=
  ⟨fun h => ⟨_, h, rfl⟩, _, Directive.forall₂_splitInto_self _, (List.flatMap_singleton' _).symm⟩

/-- The items of a list, each once or several times in a row. -/
inductive Repeats {α : Type} : List α → List α → Prop
  | nil : Repeats [] []
  | cons (item : α) (times : Nat) {items items' : List α} : Repeats items items' →
      Repeats (item :: items) (List.replicate (times + 1) item ++ items')

theorem targetPaths_eq (path : Path) (contents : String) : targetPaths path contents =
    ((directives contents).map (·.2)).map fun directive => path.directory.join ⟨directive.path⟩ := by
  rw [targetPaths, List.map_map]
  rfl

theorem AlikeTexts.repeats {text text' : String} (h : AlikeTexts text text') (path : Path) :
    Repeats (targetPaths path text) (targetPaths path text') := by
  obtain ⟨parts, hparts, hflat⟩ := h.split
  rw [targetPaths_eq, targetPaths_eq, hflat]
  clear hflat
  generalize (directives text).map (·.2) = whole at hparts
  induction hparts with
  | nil => exact .nil
  | @cons directive part directives parts hsplit _ ih =>
    have hreplicate : part.map (fun part => path.directory.join ⟨part.path⟩) =
        List.replicate (part.length - 1 + 1) (path.directory.join ⟨directive.path⟩) := by
      rw [List.eq_replicate_iff, List.length_map]
      have hpos := List.length_pos_iff.2 hsplit.ne_nil
      refine ⟨by omega, fun target ht => ?_⟩
      obtain ⟨part, hp, rfl⟩ := List.mem_map.1 ht
      rw [hsplit.path part hp]
    rw [List.map_cons, List.flatten_cons, List.map_append, hreplicate]
    exact .cons _ _ ih

theorem Repeats.mem {α : Type} {items items' : List α} (h : Repeats items items') {item : α} (hm : item ∈ items') :
    item ∈ items := by
  induction h with
  | nil => cases hm
  | cons first times _ ih =>
    rcases List.mem_append.1 hm with hm | hm
    · rw [List.eq_of_mem_replicate hm]
      exact .head _
    · exact .tail _ (ih hm)

/-! ## The same files in the same order -/

theorem Reads.replicate_again (hr : tree.readAt path = .ok (identity, contents)) (hk : identity ∈ known) (times : Nat)
    (h : Reads tree known paths visited) : Reads tree known (List.replicate times path ++ paths) visited := by
  induction times with
  | zero => exact h
  | succ times ih => exact .again hr hk ih

theorem Reads.replicate_unreadable {error : FileError} (hr : tree.readAt path = .error error) (times : Nat)
    (h : Reads tree known paths visited) : Reads tree known (List.replicate times path ++ paths) visited := by
  induction times with
  | zero => exact h
  | succ times ih => exact .unreadable hr ih

/-- Every path leads to the same place in both trees, and what is read there is rewritten. -/
def Rewrites (tree tree' : FileTree) (rewritten : Location → String → String) : Prop :=
  ∀ path, tree'.readAt path = (tree.readAt path).map fun found => (found.1, rewritten found.1 found.2)

variable {rewritten : Location → String → String}

theorem Rewrites.ok (h : Rewrites tree tree' rewritten) (hr : tree.readAt path = .ok (identity, contents)) :
    tree'.readAt path = .ok (identity, rewritten identity contents) := by
  rw [h, hr]
  rfl

/-- Repeated paths lead to no other files. -/
theorem Reads.rewrite (htree : Rewrites tree tree' rewritten) (h : Reads tree known paths visited)
    (htexts : ∀ entry ∈ visited, ∀ contents, tree.readAt entry.2 = .ok (entry.1, contents) →
      Repeats (targetPaths entry.2 contents) (targetPaths entry.2 (rewritten entry.1 contents)))
    (hpaths : Repeats paths paths') : Reads tree' known paths' visited := by
  induction h generalizing paths' with
  | done =>
    cases hpaths
    exact .done
  | unreadable hr _ ih =>
    cases hpaths with
    | cons path times hpaths => exact Reads.replicate_unreadable (by rw [htree, hr]; rfl) _ (ih htexts hpaths)
  | again hr hk _ ih =>
    cases hpaths with
    | cons path times hpaths => exact Reads.replicate_again (htree.ok hr) hk _ (ih htexts hpaths)
  | @first known path paths identity contents inner after hr hk _ _ ihi iha =>
    cases hpaths with
    | cons path times hpaths =>
      have hinner := ihi (fun entry he => htexts entry (by simp [he])) (htexts (identity, path) (by simp) contents hr)
      have hafter := iha (fun entry he => htexts entry (by simp [he])) hpaths
      -- once the file is known its path leads to nothing new
      exact .first (htree.ok hr) hk hinner (Reads.replicate_again (htree.ok hr) (by simp) times hafter)

/-! ## The same text -/

/-- What holds of a directive if it holds of one of its parts. -/
theorem AlikeTexts.exists_iff {text text' : String} (h : AlikeTexts text text') {Q : Directive → Prop}
    (hQ : ∀ directive parts, directive.SplitInto parts → (Q directive ↔ ∃ part ∈ parts, Q part)) :
    (∃ directive ∈ (directives text).map (·.2), Q directive) ↔ ∃ directive ∈ (directives text').map (·.2), Q directive := by
  obtain ⟨parts, hparts, hflat⟩ := h.split
  rw [hflat]
  clear hflat
  generalize (directives text).map (·.2) = whole at hparts
  induction hparts with
  | nil => simp
  | @cons directive part directives parts hsplit _ ih =>
    rw [List.exists_mem_cons_iff, ih, hQ directive part hsplit, List.flatten_cons]
    simp only [List.mem_append, or_and_right, exists_or]

theorem requests_iff {files : List SchemaFile} {file : SchemaFile} (h : LoadedFrom tree root files) (hm : file ∈ files)
    (Q : Selection → Prop) (target : Nat) : file.Requests Q target ↔
      ∃ directive ∈ (directives file.contents).map (·.2), Q directive.selection ∧ ∃ found,
        tree.readAt (file.path.directory.join ⟨directive.path⟩) = .ok found ∧ entryIndex files found.1 = target := by
  rw [SchemaFile.Requests, h.imports file hm]
  simp only [List.mem_filterMap, List.mem_map]
  constructor
  · rintro ⟨link, ⟨⟨line, directive⟩, hd, hlink⟩, hq, htarget⟩
    refine ⟨directive, ⟨_, hd, rfl⟩, ?_⟩
    dsimp only at hlink
    split at hlink
    · rename_i hread
      obtain rfl := Option.some.inj hlink
      exact ⟨hq, _, hread, htarget⟩
    · cases hlink
  · rintro ⟨_, ⟨⟨line, directive⟩, hd, rfl⟩, hq, found, hread, htarget⟩
    refine ⟨⟨entryIndex files found.1, directive.selection, ⟨line, directive.column⟩⟩, ⟨(line, directive), hd, ?_⟩,
      hq, htarget⟩
    dsimp only at hread ⊢
    rw [hread]

/-- A path leads to the same file in both trees. -/
theorem Rewrites.leads_iff {files files' : List SchemaFile} (htree : Rewrites tree tree' rewritten)
    (hids : files'.map (·.identity) = files.map (·.identity)) (path : Path) (target : Nat) :
    (∃ found, tree'.readAt path = .ok found ∧ entryIndex files' found.1 = target) ↔
      ∃ found, tree.readAt path = .ok found ∧ entryIndex files found.1 = target := by
  have hindex (identity : Location) : entryIndex files' identity = entryIndex files identity := by
    unfold entryIndex
    rw [hids]
  rw [htree path]
  cases tree.readAt path with
  | error => simp [Except.map]
  | ok found => simp [Except.map, hindex]

/-- A loaded file and what is loaded in its place from the other tree. -/
theorem alike_of_loadedFrom {files files' : List SchemaFile} {file file' : SchemaFile}
    (htree : Rewrites tree tree' rewritten) (h : LoadedFrom tree root files) (h' : LoadedFrom tree' root files')
    (hids : files'.map (·.identity) = files.map (·.identity)) (hm : file ∈ files) (hm' : file' ∈ files')
    (hentry : file'.entry = file.entry) (hsound : file.Sound tree) (hsound' : file'.Sound tree')
    (htexts : AlikeTexts file.contents (rewritten file.identity file.contents)) : file.Alike file' := by
  obtain ⟨-, hpath⟩ := Prod.mk.inj hentry
  have hcontents : file'.contents = rewritten file.identity file.contents := by
    have hread := h'.read file' hm'
    rw [hpath, htree.ok (h.read file hm)] at hread
    exact (Prod.mk.inj (Except.ok.inj hread)).2.symm
  constructor
  case definitions =>
    obtain ⟨definitions, hread, hsame⟩ := htexts.reads hsound.definitions
    rw [← hcontents, hsound'.definitions] at hread
    obtain rfl := Except.ok.inj hread
    exact hsame
  case requests =>
    intro Q hQ target
    rw [requests_iff h hm, requests_iff h' hm', hcontents, hpath]
    simp only [htree.leads_iff hids]
    refine htexts.exists_iff fun directive parts hsplit => ?_
    -- parts have the path of their directive, so they lead to the same file
    constructor
    · rintro ⟨hq, hfound⟩
      obtain ⟨part, hp, hq⟩ := (hsplit.requests hQ).1 hq
      exact ⟨part, hp, hq, hsplit.path part hp ▸ hfound⟩
    · rintro ⟨part, hp, hq, hfound⟩
      exact ⟨(hsplit.requests hQ).2 ⟨part, hp, hq⟩, hsplit.path part hp ▸ hfound⟩

/-- The walk through the loaded files is one through the other tree as well. -/
theorem reads_rewritten {files : List SchemaFile} (htree : Rewrites tree tree' rewritten)
    (h : LoadedFrom tree root files)
    (htexts : ∀ file ∈ files, AlikeTexts file.contents (rewritten file.identity file.contents)) :
    Reads tree' [] [root] (files.map (·.entry)) := by
  refine ((h.preorder _).2 rfl).rewrite htree (fun entry he contents hread => ?_) (.cons root 0 .nil)
  obtain ⟨file, hf, rfl⟩ := List.mem_map.1 he
  -- what a path of the walk leads to is the text of a loaded file
  have hfile := (h.read file hf).symm.trans hread
  obtain rfl : file.contents = contents := (Prod.mk.inj (Except.ok.inj hfile)).2
  exact (htexts file hf).repeats file.path

theorem exists_loadFiles_rewritten {files : List SchemaFile} (htree : Rewrites tree tree' rewritten)
    (h : LoadedFrom tree root files) (hsound : ∀ file ∈ files, file.Sound tree)
    (htexts : ∀ file ∈ files, AlikeTexts file.contents (rewritten file.identity file.contents)) :
    ∃ loader, loadFiles tree' root = .ok loader ∧ loader.problems = [] := by
  refine exists_loadFiles (reads_rewritten htree h htexts) ?_ fun entry he contents hread => ?_
  · obtain ⟨file, hhead, rfl⟩ := Option.map_eq_some_iff.1 h.root_first
    exact ⟨_, htree.ok (h.read file (List.mem_of_mem_head? hhead))⟩
  · obtain ⟨file, hf, rfl⟩ := List.mem_map.1 he
    obtain rfl : rewritten file.identity file.contents = contents :=
      (Prod.mk.inj (Except.ok.inj ((htree.ok (h.read file hf)).symm.trans hread))).2
    obtain ⟨definitions, hdefinitions, -⟩ := (htexts file hf).reads (hsound file hf).definitions
    refine ⟨⟨definitions, hdefinitions⟩, fun path hp => ?_⟩
    obtain ⟨found, hfound⟩ := (hsound file hf).targets path (((htexts file hf).repeats file.path).mem hp)
    exact ⟨_, htree.ok hfound⟩

/-- From another tree where every path leads to the same place, and every loaded file has an alike text, the same
text is combined. -/
theorem load_rewritten {source : Source} (htree : Rewrites tree tree' rewritten) (h : load tree root = .ok source)
    (htexts : ∀ file ∈ source.files, AlikeTexts file.contents (rewritten file.identity file.contents)) :
    ∃ source', load tree' root = .ok source' ∧ source'.contents = source.contents := by
  obtain ⟨loader, selected, hload, hselect, rfl⟩ := load_eq_ok h
  rw [files_combine] at htexts
  obtain ⟨hloaded, hsound⟩ := loads_of_loadFiles hload (problems_of_load h hload)
  obtain ⟨loader', hload', hnone'⟩ := exists_loadFiles_rewritten htree hloaded hsound htexts
  obtain ⟨hloaded', hsound'⟩ := loads_of_loadFiles hload' hnone'
  -- the walks are the same, so the files are loaded from the same places in the same order
  have hentries : loader.files.map (·.entry) = loader'.files.map (·.entry) :=
    (hloaded'.preorder _).1 (reads_rewritten htree hloaded htexts)
  have hids : loader'.files.map (·.identity) = loader.files.map (·.identity) := by
    simpa [SchemaFile.entry, Function.comp_def] using congrArg (List.map Prod.fst) hentries.symm
  have halike : AlikeFiles loader.files loader'.files :=
    forall₂_of_map_eq hentries fun file hf file' hf' hentry => alike_of_loadedFrom htree hloaded hloaded' hids hf hf'
      hentry.symm (hsound file hf) (hsound' file' hf') (htexts file hf)
  obtain ⟨selected', hselect', hcontents⟩ := combine_alike halike hselect
  exact ⟨_, load_of_loadFiles hload' hnone' hselect', hcontents⟩

end SchemaFragments.Import
