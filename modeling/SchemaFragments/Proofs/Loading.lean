import Mathlib
import SchemaFragments.Import.Loader
/-!
# The order in which files are loaded

`loadFiles` keeps the directives still to be followed on a stack. Here the order it reads files in is
said by recursion on the directives (`Reads`): a file, then what its own directives lead to, then the
rest. `loadFiles_loadedFrom`: when no text is torn the files that can be reached from the root are loaded
in this order, once each, and every directive with a readable target is linked to the file it denotes.
-/

namespace SchemaFragments.Import

variable {tree : FileTree} {root path : Path} {known : List Location} {paths : List Path}
  {identity location : Location} {contents : String} {visited : List (Location × Path)}

/-! ## Depth first, said by recursion -/

/-- Paths that the directives of a file denote when it is read under a path, in line order. -/
def targetPaths (path : Path) (contents : String) : List Path :=
  (directives contents).map fun (_, directive) => path.directory.join ⟨directive.path⟩

/-- Following paths in order reads files that are not known yet, each under its path: first the file
itself, then what its directives lead to, then what the other paths lead to. -/
inductive Reads (tree : FileTree) : List Location → List Path → List (Location × Path) → Prop
  | done {known : List Location} : Reads tree known [] []
  | unreadable {known : List Location} {path : Path} {paths : List Path} {error : FileError}
      {visited : List (Location × Path)} :
      tree.readAt path = .error error → Reads tree known paths visited → Reads tree known (path :: paths) visited
  | again {known : List Location} {path : Path} {paths : List Path} {identity : Location} {contents : String}
      {visited : List (Location × Path)} :
      tree.readAt path = .ok (identity, contents) → identity ∈ known → Reads tree known paths visited →
      Reads tree known (path :: paths) visited
  | first {known : List Location} {path : Path} {paths : List Path} {identity : Location} {contents : String}
      {inner after : List (Location × Path)} :
      tree.readAt path = .ok (identity, contents) → identity ∉ known →
      Reads tree (known ++ [identity]) (targetPaths path contents) inner →
      Reads tree (known ++ [identity] ++ inner.map (·.1)) paths after →
      Reads tree known (path :: paths) ((identity, path) :: inner ++ after)

namespace Reads

/-- Following one list of paths after another. -/
theorem split {before after : List Path} (h : Reads tree known (before ++ after) visited) :
    ∃ first second, visited = first ++ second ∧ Reads tree known before first ∧
      Reads tree (known ++ first.map (·.1)) after second := by
  induction before generalizing known visited with
  | nil => exact ⟨[], visited, rfl, .done, by simpa using h⟩
  | cons path before ih =>
    rw [List.cons_append] at h
    cases h with
    | unreadable hr hrest =>
      obtain ⟨first, second, he, h1, h2⟩ := ih hrest
      exact ⟨first, second, he, .unreadable hr h1, h2⟩
    | again hr hk hrest =>
      obtain ⟨first, second, he, h1, h2⟩ := ih hrest
      exact ⟨first, second, he, .again hr hk h1, h2⟩
    | @first _ _ _ identity _ inner _ hr hk hinner hrest =>
      obtain ⟨first, second, rfl, h1, h2⟩ := ih hrest
      exact ⟨(identity, path) :: inner ++ first, second, by simp, .first hr hk hinner h1,
        by simpa [List.append_assoc] using h2⟩

/-- No file is read twice. -/
theorem nodup (h : Reads tree known paths visited) (hk : known.Nodup) :
    (known ++ visited.map (·.1)).Nodup := by
  induction h with
  | done => simpa using hk
  | unreadable _ _ ih => exact ih hk
  | again _ _ _ ih => exact ih hk
  | @first known path paths identity contents inner after hr hnew _ _ ihi iha =>
    have hknown : (known ++ [identity]).Nodup := by
      rw [List.nodup_append]
      exact ⟨hk, by simp, by rintro a ha b hb rfl; exact hnew (List.mem_singleton.1 hb ▸ ha)⟩
    have hall := iha (ihi hknown)
    simpa [List.append_assoc] using hall

/-- There is one such order. -/
theorem functional {other : List (Location × Path)} (h : Reads tree known paths visited)
    (ho : Reads tree known paths other) : visited = other := by
  induction h generalizing other with
  | done => cases ho; rfl
  | unreadable hr _ ih =>
    cases ho with
    | unreadable _ hrest => exact ih hrest
    | again hr' | first hr' =>
      rw [hr] at hr'
      cases hr'
  | again hr hk _ ih =>
    cases ho with
    | again _ _ hrest => exact ih hrest
    | unreadable hr' =>
      rw [hr] at hr'
      cases hr'
    | first hr' hk' =>
      rw [hr] at hr'
      cases hr'
      exact absurd hk hk'
  | first hr hk _ _ ihi iha =>
    cases ho with
    | unreadable hr' =>
      rw [hr] at hr'
      cases hr'
    | again hr' hk' =>
      rw [hr] at hr'
      cases hr'
      exact absurd hk' hk
    | first hr' _ hinner hrest =>
      rw [hr] at hr'
      cases hr'
      obtain rfl := ihi hinner
      rw [iha hrest]

/-- The readable targets of the paths, and of the directives of every file read, are read. -/
theorem closed (h : Reads tree known paths visited) :
    (∀ path ∈ paths, ∀ found, tree.readAt path = .ok found → found.1 ∈ known ++ visited.map (·.1)) ∧
      ∀ entry ∈ visited, ∀ contents, tree.readAt entry.2 = .ok (entry.1, contents) →
        ∀ path ∈ targetPaths entry.2 contents, ∀ found, tree.readAt path = .ok found →
          found.1 ∈ known ++ visited.map (·.1) := by
  induction h with
  | done => simp
  | @unreadable known path paths error visited hr _ ih =>
    refine ⟨fun p hp found hf => ?_, ih.2⟩
    rcases List.mem_cons.1 hp with rfl | hp
    · rw [hr] at hf
      cases hf
    · exact ih.1 p hp found hf
  | @again known path paths identity contents visited hr hk _ ih =>
    refine ⟨fun p hp found hf => ?_, ih.2⟩
    rcases List.mem_cons.1 hp with rfl | hp
    · rw [hr, Except.ok.injEq] at hf
      exact List.mem_append_left _ (hf ▸ hk)
    · exact ih.1 p hp found hf
  | @first known path paths identity contents inner after hr hk _ _ ihi iha =>
    have hlist : known ++ ((identity, path) :: inner ++ after).map (·.1) =
        known ++ [identity] ++ inner.map (·.1) ++ after.map (·.1) := by simp
    rw [hlist]
    refine ⟨fun p hp found hf => ?_, fun entry he text ht p hp found hf => ?_⟩
    · rcases List.mem_cons.1 hp with rfl | hp
      · rw [hr, Except.ok.injEq] at hf
        simp [← hf]
      · exact iha.1 p hp found hf
    · rcases List.mem_append.1 he with he | he
      · refine List.mem_append_left _ ?_
        rcases List.mem_cons.1 he with rfl | he
        · obtain rfl : contents = text := by simpa [hr] using ht
          exact ihi.1 p hp found hf
        · exact ihi.2 entry he text ht p hp found hf
      · exact iha.2 entry he text ht p hp found hf

/-- What holds of the readable targets of the paths, and passes from a file that is read to the readable
targets of its directives, holds of every file that is read. -/
theorem invariant {P : Location → Prop} (h : Reads tree known paths visited)
    (hpaths : ∀ path ∈ paths, ∀ found, tree.readAt path = .ok found → P found.1)
    (hstep : ∀ entry ∈ visited, ∀ contents, tree.readAt entry.2 = .ok (entry.1, contents) → P entry.1 →
      ∀ path ∈ targetPaths entry.2 contents, ∀ found, tree.readAt path = .ok found → P found.1) :
    ∀ entry ∈ visited, P entry.1 := by
  induction h with
  | done => simp
  | unreadable _ _ ih => exact ih (fun p hp => hpaths p (List.mem_cons_of_mem _ hp)) hstep
  | again _ _ _ ih => exact ih (fun p hp => hpaths p (List.mem_cons_of_mem _ hp)) hstep
  | @first known path paths identity contents inner after hr _ _ _ ihi iha =>
    have hself : P identity := hpaths path (by simp) _ hr
    have hinner := ihi (fun p hp => hstep (identity, path) (by simp) contents hr hself p hp)
      (fun entry he => hstep entry (by simp [he]))
    have hafter := iha (fun p hp => hpaths p (List.mem_cons_of_mem _ hp)) (fun entry he => hstep entry (by simp [he]))
    intro entry he
    rcases List.mem_append.1 he with he | he
    · rcases List.mem_cons.1 he with rfl | he
      · exact hself
      · exact hinner entry he
    · exact hafter entry he

end Reads

/-! ## What the loader does -/

def SchemaFile.entry (file : SchemaFile) : Location × Path := (file.identity, file.path)

/-- The directives of a file as they wait to be followed. -/
def pendingOf (importer : Nat) (path : Path) (contents : String) : List Pending :=
  (directives contents).map fun (line, directive) =>
    { importer
      site := ⟨path, contents, ⟨line, directive.column⟩⟩
      path := path.directory.join ⟨directive.path⟩
      selection := directive.selection }

theorem map_path_pendingOf {importer : Nat} :
    (pendingOf importer path contents).map (·.path) = targetPaths path contents := by
  simp [pendingOf, targetPaths, Function.comp_def]

/-- The link that a directive ends up as, if its target can be read. -/
def Pending.resolve (tree : FileTree) (identities : List Location) (pending : Pending) : Option ResolvedImport :=
  match tree.readAt pending.path with
  | .ok (identity, _) => some ⟨identities.idxOf identity, pending.selection, pending.site.position⟩
  | .error _ => none

/-- The links of the file at an index among directives to be followed. -/
def resolvedFor (tree : FileTree) (identities : List Location) (index : Nat) (pending : List Pending) :
    List ResolvedImport :=
  (pending.filter (·.importer == index)).filterMap (·.resolve tree identities)

theorem resolvedFor_cons {identities : List Location} {index : Nat} {next : Pending} {rest : List Pending} :
    resolvedFor tree identities index (next :: rest) =
      (if next.importer = index then (next.resolve tree identities).toList else []) ++
        resolvedFor tree identities index rest := by
  unfold resolvedFor
  by_cases h : next.importer = index
  · cases hr : next.resolve tree identities <;> simp [h, hr]
  · simp [h]

theorem resolvedFor_append {identities : List Location} {index : Nat} {a b : List Pending} :
    resolvedFor tree identities index (a ++ b) =
      resolvedFor tree identities index a ++ resolvedFor tree identities index b := by
  simp [resolvedFor]

theorem resolvedFor_of_importers {identities : List Location} {index : Nat} {pending : List Pending}
    (h : ∀ p ∈ pending, p.importer ≠ index) : resolvedFor tree identities index pending = [] := by
  have hnone : pending.filter (·.importer == index) = [] := by simpa using h
  rw [resolvedFor, hnone, List.filterMap_nil]

theorem resolvedFor_pendingOf {identities : List Location} {index : Nat} :
    resolvedFor tree identities index (pendingOf index path contents) =
      (pendingOf index path contents).filterMap (·.resolve tree identities) := by
  rw [resolvedFor, List.filter_eq_self.2]
  intro p hp
  obtain ⟨directive, -, rfl⟩ := List.mem_map.1 hp
  simp

namespace Loader

variable {loader loader' final : Loader} {pending : List Pending}

theorem addFile_eq_some (h : loader.addFile path identity contents = some (loader', pending)) :
    (∃ definitions, loader'.files = loader.files ++ [⟨path, identity, contents, definitions, []⟩]) ∧
      pending = pendingOf loader.files.length path contents := by
  simp only [addFile] at h
  split at h <;> simp only [Option.some.injEq, Prod.mk.injEq, reduceCtorEq] at h <;> obtain ⟨rfl, rfl⟩ := h
  · exact ⟨⟨_, rfl⟩, rfl⟩
  · exact ⟨⟨_, rfl⟩, rfl⟩

/-- Only a torn text keeps a file from being added. -/
theorem exists_addFile (h : Document.parse contents ≠ .error .tornBlockString) :
    ∃ next, loader.addFile path identity contents = some next := by
  simp only [addFile]
  split
  · exact ⟨_, rfl⟩
  · exact ⟨_, rfl⟩
  · rename_i hp
    split at hp
    · exact absurd hp h
    · cases hp

theorem getElem?_link {next : Pending} {target index : Nat} :
    (loader.link next target).files[index]? = (loader.files[index]?).map fun file =>
      if next.importer = index then
        { file with imports := file.imports ++ [⟨target, next.selection, next.site.position⟩] }
      else file := by
  simp [link, List.getElem?_modify]

theorem map_entry_link {next : Pending} {target : Nat} :
    (loader.link next target).files.map (·.entry) = loader.files.map (·.entry) := by
  apply List.ext_getElem?
  intro index
  rw [List.getElem?_map, List.getElem?_map, getElem?_link]
  cases loader.files[index]? with
  | none => rfl
  | some file =>
    simp only [Option.map_some, Option.some.injEq]
    split <;> rfl

theorem identities_eq (loader : Loader) : loader.identities = (loader.files.map (·.entry)).map (·.1) := by
  simp [identities, SchemaFile.entry]

theorem length_link {next : Pending} {target : Nat} :
    (loader.link next target).files.length = loader.files.length := by
  simp [link]

/-- Following directives reads the files that recursion on them reads, in this order. -/
theorem follow_reads (h : follow tree pending loader = some final) :
    ∃ visited, Reads tree loader.identities (pending.map (·.path)) visited ∧
      final.files.map (·.entry) = loader.files.map (·.entry) ++ visited := by
  fun_induction follow tree pending loader with
  | case1 loader =>
    obtain rfl := Option.some.inj h
    exact ⟨[], .done, by simp⟩
  | case2 loader next rest error hr ih =>
    obtain ⟨visited, hv, he⟩ := ih h
    exact ⟨visited, .unreadable hr hv, he⟩
  | case3 loader next rest identity contents hr hknown ih =>
    obtain ⟨visited, hv, he⟩ := ih h
    rw [identities_link] at hv
    rw [map_entry_link] at he
    exact ⟨visited, .again hr hknown hv, he⟩
  | case4 => cases h
  | case5 loader next rest identity contents hr hknown loader' more ha ih =>
    obtain ⟨visited, hv, he⟩ := ih h
    obtain ⟨⟨definitions, hfiles⟩, rfl⟩ := addFile_eq_some ha
    rw [identities_link, identities_addFile ha, List.map_append, map_path_pendingOf] at hv
    -- the new file's directives are followed before those that were waiting
    obtain ⟨inner, after, rfl, hi, hafter⟩ := hv.split
    refine ⟨(identity, next.path) :: inner ++ after, .first hr hknown hi hafter, ?_⟩
    rw [he, map_entry_link, hfiles]
    simp [SchemaFile.entry]

/-- A directive that is linked to a file adds what it is resolved to. -/
theorem getElem?_of_link {next : Pending} {target index : Nat} {rest : List Pending} {file : SchemaFile}
    (hresolve : next.resolve tree final.identities = some ⟨target, next.selection, next.site.position⟩)
    (hrest : ∀ file, (loader.link next target).files[index]? = some file → final.files[index]? =
      some { file with imports := file.imports ++ resolvedFor tree final.identities index rest })
    (hf : loader.files[index]? = some file) : final.files[index]? =
      some { file with imports := file.imports ++ resolvedFor tree final.identities index (next :: rest) } := by
  rw [resolvedFor_cons, hresolve]
  rw [getElem?_link, hf, Option.map_some] at hrest
  rw [hrest _ rfl]
  split <;> simp

/-- A file that is loaded by the end has what it had, and links for the directives still to be followed. A
file that is not loaded yet gets links for its own directives. -/
theorem follow_imports (h : follow tree pending loader = some final)
    (hp : ∀ p ∈ pending, p.importer < loader.files.length) :
    (∀ (index : Nat) (file : SchemaFile), loader.files[index]? = some file → final.files[index]? =
      some { file with imports := file.imports ++ resolvedFor tree final.identities index pending }) ∧
    ∀ (index : Nat) (file : SchemaFile), loader.files.length ≤ index → final.files[index]? = some file →
      file.imports = resolvedFor tree final.identities index (pendingOf index file.path file.contents) ∧
        tree.readAt file.path = .ok (file.identity, file.contents) := by
  fun_induction follow tree pending loader with
  | case1 loader =>
    obtain rfl := Option.some.inj h
    refine ⟨fun index file hf => by simpa [resolvedFor] using hf, fun index file hle hf => ?_⟩
    rw [List.getElem?_eq_none hle] at hf
    cases hf
  | case2 loader next rest error hr ih =>
    have hnone : next.resolve tree final.identities = none := by simp [Pending.resolve, hr]
    obtain ⟨hold, hnew⟩ := ih h (fun p hm => hp p (List.mem_cons_of_mem _ hm))
    refine ⟨fun index file hf => ?_, hnew⟩
    rw [hold index file hf, resolvedFor_cons, hnone]
    simp
  | case3 loader next rest identity contents hr hknown ih =>
    -- entries are only appended, so what has an index keeps it
    obtain ⟨visited, -, hentries⟩ := follow_reads h
    have hindex : final.identities.idxOf identity = loader.identities.idxOf identity := by
      rw [identities_eq final, hentries, map_entry_link, List.map_append, ← identities_eq,
        List.idxOf_append, if_pos hknown]
    have hresolve : next.resolve tree final.identities =
        some ⟨loader.identities.idxOf identity, next.selection, next.site.position⟩ := by
      simp [Pending.resolve, hr, hindex]
    obtain ⟨hold, hnew⟩ := ih h (fun p hm => by
      rw [length_link]
      exact hp p (List.mem_cons_of_mem _ hm))
    rw [length_link] at hnew
    exact ⟨fun index file hf => getElem?_of_link hresolve (hold index) hf, hnew⟩
  | case4 => cases h
  | case5 loader next rest identity contents hr hknown loader' more ha ih =>
    obtain ⟨⟨definitions, hfiles⟩, rfl⟩ := addFile_eq_some ha
    have hlength : loader'.files.length = loader.files.length + 1 := by simp [hfiles]
    obtain ⟨visited, -, hentries⟩ := follow_reads h
    have hindex : final.identities.idxOf identity = loader.files.length := by
      rw [identities_eq final, hentries, map_entry_link, List.map_append, ← identities_eq,
        identities_addFile ha, List.append_assoc, List.idxOf_append, if_neg hknown]
      simp [identities]
    have hresolve : next.resolve tree final.identities =
        some ⟨loader.files.length, next.selection, next.site.position⟩ := by
      simp [Pending.resolve, hr, hindex]
    have hnext := hp next (by simp)
    have hrest : ∀ p ∈ rest, p.importer < loader.files.length :=
      fun p hm => hp p (List.mem_cons_of_mem _ hm)
    obtain ⟨hold, hnew⟩ := ih h (fun p hm => by
      rw [length_link, hlength]
      rcases List.mem_append.1 hm with hm | hm
      · obtain ⟨directive, -, rfl⟩ := List.mem_map.1 hm
        exact Nat.lt_succ_self _
      · exact Nat.lt_succ_of_lt (hrest p hm))
    rw [length_link, hlength] at hnew
    constructor
    · -- a file that was there: the directives of the new one are not its own
      intro index file hf
      have hlt := (List.getElem?_eq_some_iff.1 hf).1
      refine getElem?_of_link hresolve (fun file' hf' => ?_) (by rw [hfiles, List.getElem?_append_left hlt, hf])
      rw [hold index file' hf', resolvedFor_append, resolvedFor_of_importers, List.nil_append]
      intro p hm
      obtain ⟨directive, -, rfl⟩ := List.mem_map.1 hm
      exact Nat.ne_of_gt hlt
    · intro index file hle hf
      rcases Nat.eq_or_lt_of_le hle with rfl | hlt
      · -- the new file itself: the directives that were waiting are not its own
        have hlinked : (loader'.link next loader.files.length).files[loader.files.length]? =
            some ⟨next.path, identity, contents, definitions, []⟩ := by
          rw [getElem?_link, hfiles]
          simp [Nat.ne_of_lt hnext]
        rw [hold _ _ hlinked, Option.some.injEq] at hf
        subst hf
        refine ⟨?_, hr⟩
        rw [resolvedFor_append, resolvedFor_of_importers (fun p hm => Nat.ne_of_lt (hrest p hm))]
        simp
      · exact hnew index file hlt hf

theorem exists_follow (tree : FileTree) (pending : List Pending) (loader : Loader)
    (htorn : ∀ location text, (location, Entry.file (some text)) ∈ tree.entries →
      Document.parse text ≠ .error .tornBlockString) :
    ∃ final, follow tree pending loader = some final := by
  fun_induction follow tree pending loader with
  | case1 loader => exact ⟨loader, rfl⟩
  | case2 _ _ _ _ _ ih => exact ih
  | case3 _ _ _ _ _ _ _ ih => exact ih
  | case4 loader next rest identity contents hr hknown ha =>
    obtain ⟨added, hadded⟩ := exists_addFile (htorn _ _ (FileTree.readAt_entry hr))
    rw [ha] at hadded
    cases hadded
  | case5 _ _ _ _ _ _ _ _ _ _ ih => exact ih

end Loader

/-! ## All files of a schema -/

/-- A file that a chain of directives leads to from the root. Each of them is seen from the directory of the
path under which the file it stands in was loaded. -/
inductive Reached (tree : FileTree) (root : Path) (files : List SchemaFile) : Location → Prop
  | root {found : Location × String} : tree.readAt root = .ok found → Reached tree root files found.1
  | step {file : SchemaFile} {path : Path} {found : Location × String} : file ∈ files →
      Reached tree root files file.identity → path ∈ targetPaths file.path file.contents →
      tree.readAt path = .ok found → Reached tree root files found.1

/-- The index of the entry of a file. -/
def entryIndex (files : List SchemaFile) (identity : Location) : Nat :=
  (files.map (·.identity)).idxOf identity

/-- What loading everything from a root gives. -/
structure LoadedFrom (tree : FileTree) (root : Path) (files : List SchemaFile) : Prop where
  /-- The root is the first entry. -/
  root_first : (files.head?).map (·.path) = some root
  /-- Every entry holds what is read under its path. -/
  read : ∀ file ∈ files, tree.readAt file.path = .ok (file.identity, file.contents)
  /-- An entry is for the one place that all spellings of its path stand for. -/
  identity : ∀ file ∈ files, tree.identity? file.path = some file.identity
  /-- There is one entry for each file that can be reached. -/
  once : (files.map (·.identity)).Nodup
  reached : ∀ location, location ∈ files.map (·.identity) ↔ Reached tree root files location
  /-- The entries stand in the order of the depth first walk along the directives. -/
  preorder : ∀ entries, Reads tree [] [root] entries ↔ entries = files.map (·.entry)
  /-- A file is known by the index of its entry. -/
  index : ∀ (index : Nat) (file : SchemaFile), files[index]? = some file → entryIndex files file.identity = index
  /-- The links are those directives, in line order, that have a readable target. -/
  imports : ∀ file ∈ files, file.imports = (directives file.contents).filterMap fun (line, directive) =>
    match tree.readAt (file.path.directory.join ⟨directive.path⟩) with
    | .ok (identity, _) => some ⟨entryIndex files identity, directive.selection, ⟨line, directive.column⟩⟩
    | .error _ => none
  /-- A readable target has an entry of its own. -/
  target : ∀ file ∈ files, ∀ path ∈ targetPaths file.path file.contents, ∀ found, tree.readAt path = .ok found →
    ∃ target, files[entryIndex files found.1]? = some target ∧ target.identity = found.1

theorem filterMap_resolve_pendingOf {identities : List Location} {importer : Nat} :
    (pendingOf importer path contents).filterMap (·.resolve tree identities) =
      (directives contents).filterMap fun (line, directive) =>
        match tree.readAt (path.directory.join ⟨directive.path⟩) with
        | .ok (identity, _) => some ⟨identities.idxOf identity, directive.selection, ⟨line, directive.column⟩⟩
        | .error _ => none := by
  rw [pendingOf, List.filterMap_map]
  rfl

/-- A file that is read by the loader has the text that is at its path, and links for its directives. -/
theorem loaded_file {loader final : Loader} {pending : List Pending}
    (hroot : tree.readAt root = .ok (identity, contents))
    (ha : Loader.empty.addFile root identity contents = some (loader, pending))
    (hf : loader.follow tree pending = some final) {index : Nat} {file : SchemaFile}
    (hi : final.files[index]? = some file) :
    tree.readAt file.path = .ok (file.identity, file.contents) ∧
      file.imports = resolvedFor tree final.identities index (pendingOf index file.path file.contents) := by
  obtain ⟨⟨definitions, hfiles⟩, rfl⟩ := Loader.addFile_eq_some ha
  have hfirst : loader.files = [⟨root, identity, contents, definitions, []⟩] := hfiles
  obtain ⟨hold, hnew⟩ := Loader.follow_imports hf (fun p hp => by
    obtain ⟨directive, -, rfl⟩ := List.mem_map.1 hp
    simp [hfirst, Loader.empty])
  cases index with
  | zero =>
    rw [hold 0 _ (by rw [hfirst]; rfl), Option.some.injEq] at hi
    subst hi
    exact ⟨hroot, by simp [Loader.empty]⟩
  | succ index =>
    obtain ⟨himports, hread⟩ := hnew (index + 1) file (by simp [hfirst]) hi
    exact ⟨hread, himports⟩

theorem loaded_reads {loader final : Loader} {pending : List Pending}
    (hroot : tree.readAt root = .ok (identity, contents))
    (ha : Loader.empty.addFile root identity contents = some (loader, pending))
    (hf : loader.follow tree pending = some final) : Reads tree [] [root] (final.files.map (·.entry)) := by
  obtain ⟨visited, hv, he⟩ := Loader.follow_reads hf
  obtain ⟨⟨definitions, hfiles⟩, rfl⟩ := Loader.addFile_eq_some ha
  rw [Loader.identities_addFile ha, map_path_pendingOf] at hv
  have hall : final.files.map (·.entry) = (identity, root) :: visited ++ [] := by
    rw [he, hfiles]
    simp [Loader.empty, SchemaFile.entry]
  rw [hall]
  exact .first hroot (by simp) hv .done

/-- What the root and the directives of loaded files lead to is loaded, and nothing else. -/
theorem mem_identities_iff {files : List SchemaFile} (hreads : Reads tree [] [root] (files.map (·.entry)))
    (hread : ∀ file ∈ files, tree.readAt file.path = .ok (file.identity, file.contents)) :
    location ∈ files.map (·.identity) ↔ Reached tree root files location := by
  have hids : [] ++ (files.map (·.entry)).map (·.1) = files.map (·.identity) := by simp [SchemaFile.entry]
  obtain ⟨hroot, htargets⟩ := hreads.closed
  rw [hids] at hroot htargets
  constructor
  · intro hm
    obtain ⟨file, hf, rfl⟩ := List.mem_map.1 hm
    refine hreads.invariant (P := Reached tree root files) (fun path hp found hr => ?_) ?_ file.entry
      (List.mem_map_of_mem hf)
    · rw [List.mem_singleton.1 hp] at hr
      exact .root hr
    · -- what the walk read at the path of an entry is the text of that entry
      intro entry he contents hr hreached path hp found hfound
      obtain ⟨other, ho, rfl⟩ := List.mem_map.1 he
      obtain rfl : other.contents = contents := by
        have heq := (hread other ho).symm.trans hr
        simpa [SchemaFile.entry] using heq
      exact .step ho hreached hp hfound
  · intro hr
    induction hr with
    | root hfound => exact hroot root (by simp) _ hfound
    | step hf _ hp hfound _ => exact htargets _ (List.mem_map_of_mem hf) _ (hread _ hf) _ hp _ hfound

theorem entryIndex_eq {files : List SchemaFile} (h : (files.map (·.identity)).Nodup) {index : Nat}
    {file : SchemaFile} (hi : files[index]? = some file) : entryIndex files file.identity = index := by
  obtain ⟨hlt, rfl⟩ := List.getElem?_eq_some_iff.1 hi
  have hidx := h.idxOf_getElem index (by simpa using hlt)
  simpa [entryIndex] using hidx

theorem exists_entry {files : List SchemaFile} (h : location ∈ files.map (·.identity)) :
    ∃ target, files[entryIndex files location]? = some target ∧ target.identity = location := by
  have hlt := List.idxOf_lt_length_iff.2 h
  have hget := List.getElem_idxOf hlt
  rw [List.getElem_map] at hget
  exact ⟨_, List.getElem?_eq_getElem (by simpa [entryIndex] using hlt), hget⟩

theorem loadedFrom_of_follow {loader final : Loader} {pending : List Pending}
    (hroot : tree.readAt root = .ok (identity, contents))
    (ha : Loader.empty.addFile root identity contents = some (loader, pending))
    (hf : loader.follow tree pending = some final) : LoadedFrom tree root final.files := by
  have hreads := loaded_reads hroot ha hf
  have hread : ∀ file ∈ final.files, tree.readAt file.path = .ok (file.identity, file.contents) := fun file hm => by
    obtain ⟨index, hi⟩ := List.getElem?_of_mem hm
    exact (loaded_file hroot ha hf hi).1
  have honce : (final.files.map (·.identity)).Nodup := by
    simpa [SchemaFile.entry, Function.comp_def] using hreads.nodup .nil
  constructor
  case root_first =>
    obtain ⟨visited, -, he⟩ := Loader.follow_reads hf
    obtain ⟨⟨definitions, hfiles⟩, -⟩ := Loader.addFile_eq_some ha
    have hhead := congrArg (fun entries => entries.head?.map Prod.snd) he
    simpa [hfiles, Loader.empty, SchemaFile.entry, Function.comp_def] using hhead
  case read => exact hread
  case identity => exact fun file hm => FileTree.identity?_of_readAt (hread file hm)
  case once => exact honce
  case reached => exact fun location => mem_identities_iff hreads hread
  case preorder => exact fun entries => ⟨fun h => h.functional hreads, fun h => h ▸ hreads⟩
  case index => exact fun index file hi => entryIndex_eq honce hi
  case imports =>
    intro file hm
    obtain ⟨index, hi⟩ := List.getElem?_of_mem hm
    rw [(loaded_file hroot ha hf hi).2, resolvedFor_pendingOf, filterMap_resolve_pendingOf]
    rfl
  case target =>
    intro file hm path hp found hfound
    have hreached := (mem_identities_iff hreads hread).1 (List.mem_map_of_mem hm)
    exact exists_entry ((mem_identities_iff hreads hread).2 (.step hm hreached hp hfound))

/-- From a readable root, and where no text is torn, loading comes to an end with exactly what can be
reached, in depth first order. -/
theorem loadFiles_loadedFrom (hroot : tree.readAt root = .ok (identity, contents))
    (htorn : ∀ location text, (location, Entry.file (some text)) ∈ tree.entries →
      Document.parse text ≠ .error .tornBlockString) :
    ∃ loader, loadFiles tree root = .ok loader ∧ LoadedFrom tree root loader.files := by
  obtain ⟨⟨loader, pending⟩, ha⟩ : ∃ next, Loader.empty.addFile root identity contents = some next :=
    Loader.exists_addFile (htorn _ _ (FileTree.readAt_entry hroot))
  obtain ⟨final, hf⟩ := Loader.exists_follow tree pending loader htorn
  refine ⟨final, ?_, loadedFrom_of_follow hroot ha hf⟩
  simp only [loadFiles, hroot, ha, Option.bind_some, hf]

def cyclicText : String := "# import Book from \"b\"\n#import \"gone\"\n#import \"../w/link\"\n"

/-- A root and a file that import each other, where a link is a second name of the other file. -/
def cyclicTree : FileTree where
  workingDirectory := ["w"]
  entries := [(["w"], .directory), (["w", "a"], .file (some cyclicText)),
    (["w", "b"], .file (some "#import \"a\"\n")), (["w", "link"], .link "b")]

theorem cyclicTree_loadedFrom : cyclicTree.readAt ⟨"a"⟩ = .ok (["w", "a"], cyclicText) ∧
    ∃ loader, loadFiles cyclicTree ⟨"a"⟩ = .ok loader ∧ LoadedFrom cyclicTree ⟨"a"⟩ loader.files := by
  have hroot : cyclicTree.readAt ⟨"a"⟩ = .ok (["w", "a"], cyclicText) := by cbv
  have hcomments : Document.parse cyclicText = .error (.malformed ⟨4, 1⟩ [.unexpectedEnd]) := by cbv
  have hcomment : Document.parse "#import \"a\"\n" = .error (.malformed ⟨2, 1⟩ [.unexpectedEnd]) := by cbv
  refine ⟨hroot, loadFiles_loadedFrom hroot fun location text hm => ?_⟩
  simp only [cyclicTree, List.mem_cons, Prod.mk.injEq, Entry.file.injEq, Option.some.injEq, reduceCtorEq,
    and_false, false_or, or_false, List.not_mem_nil] at hm
  rcases hm with ⟨-, rfl⟩ | ⟨-, rfl⟩
  · rw [hcomments]
    simp
  · rw [hcomment]
    simp

end SchemaFragments.Import
