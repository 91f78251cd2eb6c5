import SchemaFragments.Proofs.DataPaths
/-!
# Applied settings

Settings change the project they are for and nothing else of its file. Applied again they change nothing, and those of
two projects are applied in any order: `updates_applySettings`.
-/

namespace SchemaFragments

open Data (Entries)

namespace Config

variable {config : Config} {name other : String} {entries : Entries} {settings : Settings} {project : Project}

/-! ## Settings that are applied again -/

theorem updateAt_congr {key : String} {change next : Entries → Entries}
    (h : ∀ inner, entries.lookup key = some (.map inner) → change inner = next inner) :
    updateAt key change entries = updateAt key next entries := by
  unfold updateAt
  split
  · rw [h _ ‹_›]
  · rfl

theorem changeMap_changeMap (key : String) (change : Entries → Entries) (entries : Entries) :
    changeMap key change (changeMap key change entries) = changeMap key (change ∘ change) entries := by
  rw [changeMap, lookup_changeMap, if_pos rfl, changeMap, Entries.set_set]
  rfl

theorem changedGeneration_changedGeneration (settings : Settings) (generation : Entries) :
    changedGeneration settings (changedGeneration settings generation) = changedGeneration settings generation := by
  have houtput : (changedGeneration settings generation).lookup "output" = some (.text settings.output) := by
    simp [changedGeneration, Entries.lookup_set]
  have hgenerator : (changedGeneration settings generation).lookup "generator" = some (.text settings.generator) := by
    simp [changedGeneration, Entries.lookup_set]
  rw [changedGeneration.eq_def settings (changedGeneration settings generation), Entries.set_of_lookup houtput,
    Entries.set_of_lookup hgenerator]

theorem legacyKey_notMem_changedExtensions {extensions : Entries} (hu : extensions.Unique) (settings : Settings) :
    legacyKey ∉ (changedExtensions settings extensions).map (·.1) := by
  intro hmem
  obtain ⟨⟨key, value⟩, hentry, rfl⟩ := List.mem_map.1 hmem
  have hfound := (Entries.lookup_eq_some_iff (unique_changeMap (hu.remove _) _ _)).2 hentry
  rw [lookup_changeMap, if_neg (by decide), Entries.lookup_remove hu, if_pos rfl] at hfound
  cases hfound

theorem changedExtensions_changedExtensions {extensions : Entries} (hu : extensions.Unique) (settings : Settings) :
    changedExtensions settings (changedExtensions settings extensions) = changedExtensions settings extensions := by
  have hlegacy := legacyKey_notMem_changedExtensions hu settings
  rw [changedExtensions, Entries.remove_of_notMem hlegacy, changedExtensions, changeMap_changeMap]
  exact congrArg (changeMap generationKey · _) (funext fun generation =>
    changedGeneration_changedGeneration settings generation)

theorem withSettings_withSettings (hd : (Data.map entries).Distinct) (settings : Settings) :
    withSettings settings (withSettings settings entries) = withSettings settings entries := by
  have hu : (Data.entriesOf (entries.lookup "extensions")).Unique := (hd.getD "extensions").unique
  rw [withSettings, changeMap_changeMap]
  exact congrArg (fun inner => Entries.set "extensions" (.map inner) entries)
    (changedExtensions_changedExtensions hu settings)

/-- The same settings again change nothing, not even the order of keys. -/
theorem applySettings_applySettings (hd : (Data.map config.entries).Distinct) (name : String) (settings : Settings) :
    (config.applySettings name settings).applySettings name settings = config.applySettings name settings := by
  have hsingle : (config.applySettings name settings).isSingle = config.isSingle := isSingle_applySettings ..
  cases hs : config.isSingle with
  | true =>
    by_cases hn : name = defaultProject
    · rw [applySettings, hsingle, if_pos hs, if_pos hn, applySettings, if_pos hs, if_pos hn,
        withSettings_withSettings hd]
    · have hsame : config.applySettings name settings = config := by rw [applySettings, if_pos hs, if_neg hn]
      rw [hsame, hsame]
  | false =>
    have hchanged {project : Entries} (h : (Data.map project).Distinct) :
        (withSettings settings ∘ withSettings settings) project = withSettings settings project :=
      withSettings_withSettings h settings
    rw [applySettings, hsingle, hs, if_neg Bool.false_ne_true, applySettings_entries hs, updateAt_updateAt,
      applySettings, hs, if_neg Bool.false_ne_true]
    congr 1
    refine updateAt_congr fun projects hprojects => ?_
    rw [Function.comp_apply, updateAt_updateAt]
    exact updateAt_congr fun inner hinner => hchanged ((hd.of_lookup hprojects).of_lookup hinner)

/-- The settings of two projects are applied in any order. -/
theorem applySettings_comm (h : other ≠ name) (config : Config) (settings next : Settings) :
    (config.applySettings name settings).applySettings other next =
      (config.applySettings other next).applySettings name settings := by
  have hsingle : (config.applySettings name settings).isSingle = config.isSingle := isSingle_applySettings ..
  have hsingle' : (config.applySettings other next).isSingle = config.isSingle := isSingle_applySettings ..
  cases hs : config.isSingle with
  | true =>
    have hsame (name : String) (settings : Settings) (hn : name ≠ defaultProject) {config : Config}
        (hs : config.isSingle = true) : config.applySettings name settings = config := by
      rw [applySettings, if_pos hs, if_neg hn]
    by_cases hn : name = defaultProject
    · have ho : other ≠ defaultProject := fun ho => h (ho.trans hn.symm)
      rw [hsame other next ho (hsingle.trans hs), hsame other next ho hs]
    · rw [hsame name settings hn hs, hsame name settings hn (hsingle'.trans hs)]
  | false =>
    rw [applySettings, hsingle, hs, if_neg Bool.false_ne_true, applySettings_entries hs, updateAt_updateAt,
      applySettings.eq_def (config.applySettings other next), hsingle', hs, if_neg Bool.false_ne_true,
      applySettings_entries hs, updateAt_updateAt]
    have hcomm : updateAt other (withSettings next) ∘ updateAt name (withSettings settings) =
        updateAt name (withSettings settings) ∘ updateAt other (withSettings next) :=
      funext fun projects => updateAt_comm (Ne.symm h) _ _ projects
    rw [hcomm, applySettings, applySettings, hs]
    rfl

/-! ## Names and kinds of projects -/

theorem projectNames_applySettings (name : String) (settings : Settings) :
    (config.applySettings name settings).projectNames = config.projectNames := by
  have hfault (what : Fault) : (config.applySettings name settings).fault what = config.fault what := by
    rw [fault, fault, path_applySettings]
  unfold projectNames
  rw [isSingle_applySettings]
  cases hs : config.isSingle with
  | true => rfl
  | false =>
    simp only [Bool.false_eq_true, if_false, hfault, applySettings_entries hs]
    by_cases hprojects : ∃ projects, config.entries.lookup "projects" = some (.map projects)
    · obtain ⟨projects, hl⟩ := hprojects
      have hkeys := keys_updateAt name (withSettings settings) projects
      rw [updateAt_eq_set hl, Entries.lookup_set, if_pos rfl, hl]
      cases projects with
      | nil => rw [List.map_eq_nil_iff.1 hkeys]
      | cons first projects =>
        cases hc : updateAt name (withSettings settings) (first :: projects) with
        | nil =>
          rw [hc] at hkeys
          cases hkeys
        | cons changed rest =>
          rw [hc] at hkeys
          exact congrArg Except.ok hkeys
    · rw [updateAt_of_no_map fun inner hl => hprojects ⟨inner, hl⟩]

theorem format_applySettings (name : String) (settings : Settings) :
    (config.applySettings name settings).format = config.format := by
  unfold applySettings
  split
  · split <;> rfl
  · rfl

/-! ## The project that is changed -/

/-- The map at the end of the way to the settings, and those above it. -/
theorem exists_map_of_prefix (he : config.projectEntries? name = some entries) (settings : Settings)
    {path : List String} (h : path <+: config.projectPath name ++ ["extensions", generationKey]) :
    ∃ inner, (Data.map (config.applySettings name settings).entries).at? path = some (.map inner) := by
  -- beneath what is no map there is nothing
  have habove {data : Data} {front back : List String} {inner : Entries}
      (h : data.at? (front ++ back) = some (.map inner)) : ∃ inner, data.at? front = some (.map inner) := by
    rw [Data.at?_append] at h
    obtain ⟨value, hvalue, h⟩ := Option.bind_eq_some_iff.1 h
    rw [hvalue]
    cases back with
    | nil =>
      rw [Data.at?_nil] at h
      exact ⟨inner, h⟩
    | cons key back =>
      cases value with
      | map found => exact ⟨found, rfl⟩
      | null | boolean | integer | float | text | list => cases h
  obtain ⟨back, hback⟩ := h
  have hend : ∃ inner, (Data.map (config.applySettings name settings).entries).at?
      (config.projectPath name ++ ["extensions", generationKey]) = some (.map inner) := by
    rw [at?_applySettings_append he, at?_withSettings, if_pos rfl, changedExtensions, at?_changeMap, if_pos rfl]
    exact ⟨_, Data.at?_nil _⟩
  rw [← hback] at hend
  obtain ⟨inner, hend⟩ := hend
  exact habove hend

theorem at?_extensions (he : config.projectEntries? name = some entries) :
    (Data.map config.entries).at? (config.projectPath name ++ ["extensions"]) = entries.lookup "extensions" := by
  rw [at?_projectPath_append he, Data.at?_cons]
  cases entries.lookup "extensions" with
  | none => rfl
  | some value => exact Data.at?_nil value

theorem at?_setting (hd : (Data.map entries).Distinct) (he : config.projectEntries? name = some entries)
    (settings : Settings) (key : String) (path : List String) :
    ∃ generation, (Data.map (config.applySettings name settings).entries).at?
        (config.projectPath name ++ "extensions" :: generationKey :: key :: path) =
      if key = "generator" then (Data.text settings.generator).at? path
      else if key = "output" then (Data.text settings.output).at? path
      else (Data.map generation).at? (key :: path) := by
  have hu : (Data.entriesOf (entries.lookup "extensions")).Unique := (hd.getD "extensions").unique
  rw [at?_applySettings_append he, at?_withSettings, if_pos rfl, at?_changedExtensions hu, if_pos rfl,
    at?_changedGeneration]
  exact ⟨_, rfl⟩

theorem saved_eq_of_map (h : ∀ value, entries.lookup "extensions" = some value → ∃ inner, value = .map inner)
    (project : Project) (settings : Settings) :
    project.saved entries settings =
      { project with extensions := { project.extensions with
          generation := some ⟨some settings.output, some settings.generator⟩
          legacy := false } } := by
  have hkept : keptExtensions entries project = project.extensions := by
    unfold keptExtensions
    split
    · obtain ⟨inner, hinner⟩ := h _ ‹_›
      cases hinner
    · rfl
  rw [Project.saved, hkept]

/-- What `config` becomes once settings are applied to a project that was read as `project`. -/
structure Updates (config : Config) (name : String) (project : Project) (settings : Settings) (after : Config) :
    Prop where
  /-- The project is read with the settings, without the old extension, and as before in everything else. -/
  read : after.project name = .ok { project with extensions := { project.extensions with
    generation := some ⟨some settings.output, some settings.generator⟩
    legacy := false } }
  output : (Data.map after.entries).at? (config.projectPath name ++ ["extensions", generationKey, "output"]) =
    some (.text settings.output)
  generator : (Data.map after.entries).at? (config.projectPath name ++ ["extensions", generationKey, "generator"]) =
    some (.text settings.generator)
  legacy : (Data.map after.entries).at? (config.projectPath name ++ ["extensions", legacyKey]) = none
  way : ∀ path, path <+: config.projectPath name ++ ["extensions", generationKey] →
    ∃ inner, (Data.map after.entries).at? path = some (.map inner)
  /-- The frame: other keys lead to the same values at every level, and no other key comes or goes. -/
  others : ∀ path, ¬ Touched (config.projectPath name) path →
    (Data.map after.entries).at? path = (Data.map config.entries).at? path
  distinct : (Data.map after.entries).Distinct
  path : after.path = config.path
  format : after.format = config.format
  single : after.isSingle = config.isSingle
  names : after.projectNames = config.projectNames
  again : after.applySettings name settings = after
  order : ∀ other next, other ≠ name →
    after.applySettings other next = (config.applySettings other next).applySettings name settings

/-- Settings of a project that can be read, whose extensions are a map where there are any. -/
theorem updates_applySettings (hd : (Data.map config.entries).Distinct) (hproject : config.project name = .ok project)
    (hmap : ∀ value, (Data.map config.entries).at? (config.projectPath name ++ ["extensions"]) = some value →
      ∃ inner, value = .map inner) (settings : Settings) :
    Updates config name project settings (config.applySettings name settings) := by
  obtain ⟨entries, he, hread⟩ := project_eq_ok_iff.1 hproject
  have hentries : (Data.map entries).Distinct := distinct_projectEntries? hd he
  have hu : (Data.entriesOf (entries.lookup "extensions")).Unique := (hentries.getD "extensions").unique
  have hextensions : ∀ value, entries.lookup "extensions" = some value → ∃ inner, value = .map inner := by
    rw [at?_extensions he] at hmap
    exact hmap
  constructor
  case read => rw [project_applySettings hentries he hread, saved_eq_of_map hextensions]
  case output =>
    obtain ⟨generation, hat⟩ := at?_setting hentries he settings "output" []
    exact hat
  case generator =>
    obtain ⟨generation, hat⟩ := at?_setting hentries he settings "generator" []
    exact hat
  case legacy =>
    rw [at?_applySettings_append he, at?_withSettings, if_pos rfl, at?_changedExtensions hu, if_neg (by decide),
      if_pos rfl]
  case way => exact fun path => exists_map_of_prefix he settings
  case others => exact fun path hpath => at?_applySettings_of_untouched hd he hpath settings
  case distinct => exact distinct_applySettings hd name settings
  case path => exact path_applySettings name settings
  case format => exact format_applySettings name settings
  case single => exact isSingle_applySettings name settings
  case names => exact projectNames_applySettings name settings
  case again => exact applySettings_applySettings hd name settings
  case order => exact fun other next hne => applySettings_comm hne config settings next

/-- Two projects, one with the old extension, and keys of no meaning at every level. -/
def twoProjects : Config := ⟨⟨".f"⟩, .json, [("note", .null), ("projects", .map [
  ("app", .map [("owner", .text "o"), ("schemaPath", .text "s"), ("extensions", .map [("fragments", .map []),
    ("endpoints", .map [("dev", .text "x")]), ("bundle", .map [("output", .text "b")])])]),
  ("web", .map [])])]⟩

theorem distinct_twoProjects : (Data.map twoProjects.entries).Distinct := by
  simp [twoProjects, Data.distinct_cons_iff, Data.distinct_nil, Data.Distinct.null, Data.Distinct.text]

theorem updates_twoProjects : Updates twoProjects "app"
    ⟨some "s", { legacy := true, bundle := some ⟨some "b"⟩ }⟩ ⟨"o", "js"⟩
    (twoProjects.applySettings "app" ⟨"o", "js"⟩) := by
  refine updates_applySettings distinct_twoProjects rfl ?_ _
  intro value h
  cases h
  exact ⟨_, rfl⟩

end Config

end SchemaFragments
