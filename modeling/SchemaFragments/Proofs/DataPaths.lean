import SchemaFragments.Proofs.Saving
/-!
# Paths in configurations

A path of keys leads through maps to a value. Settings change what is found at the paths of one project, and all
other paths lead where they led before: `at?_applySettings_of_untouched`.
-/

namespace SchemaFragments

open Data (Entries)

namespace Data

/-- What a path of keys leads to. -/
def at? : List String → Data → Option Data
  | [], data => some data
  | key :: path, .map entries => (entries.lookup key).bind (at? path)
  | _ :: _, _ => none

variable {key : String} {path rest : List String} {entries : Entries}

@[simp] theorem at?_nil (data : Data) : data.at? [] = some data := by
  cases data <;> rfl

@[simp] theorem at?_cons (key : String) (path : List String) (entries : Entries) :
    (Data.map entries).at? (key :: path) = (entries.lookup key).bind (at? path) := rfl

theorem at?_append (front back : List String) (data : Data) :
    data.at? (front ++ back) = (data.at? front).bind (at? back) := by
  induction front generalizing data with
  | nil => rw [List.nil_append, at?_nil, Option.bind_some]
  | cons key front ih =>
    cases data with
    | map entries =>
      rw [List.cons_append, at?_cons, at?_cons, Option.bind_assoc]
      exact congrArg _ (funext ih)
    | null | boolean | integer | float | text | list => rfl

/-- The map that a value is, or an empty one. -/
def entriesOf (value : Option Data) : Entries := (value.bind entries?).getD []

/-- Beneath what is no map there is nothing, as in an empty map. -/
theorem bind_at?_cons (value : Option Data) (key : String) (path : List String) :
    value.bind (at? (key :: path)) = (Data.map (entriesOf value)).at? (key :: path) := by
  rcases value with _ | (_ | _ | _ | _ | _ | _ | entries) <;> rfl

theorem distinct_cons_iff {value : Data} : (Data.map ((key, value) :: entries)).Distinct ↔
    key ∉ entries.map (·.1) ∧ value.Distinct ∧ (Data.map entries).Distinct := by
  constructor
  · rintro (_ | _ | _ | _ | _ | _ | ⟨hu, hall⟩)
    obtain ⟨hkey, hu⟩ := List.nodup_cons.1 hu
    obtain ⟨hvalue, hall⟩ := List.forall_mem_cons.1 hall
    exact ⟨hkey, hvalue, .map hu hall⟩
  · rintro ⟨hkey, hvalue, _ | _ | _ | _ | _ | _ | ⟨hu, hall⟩⟩
    exact .map (List.nodup_cons.2 ⟨hkey, hu⟩) (List.forall_mem_cons.2 ⟨hvalue, hall⟩)

end Data

/-! ## Setting keys -/

namespace Data.Entries

variable {key other : String} {value : Data} {entries : Entries}

theorem set_set (key : String) (old value : Data) (entries : Entries) :
    (entries.set key old).set key value = entries.set key value := by
  induction entries with
  | nil => simp [set]
  | cons entry entries ih =>
    by_cases hk : entry.1 = key
    · simp [set, hk]
    · simp [set, hk, ih]

theorem set_of_lookup (h : entries.lookup key = some value) : entries.set key value = entries := by
  induction entries with
  | nil => cases h
  | cons entry entries ih =>
    obtain ⟨other, old⟩ := entry
    rw [List.lookup_cons] at h
    rw [set]
    by_cases hk : other = key
    · subst hk
      rw [beq_self_eq_true] at h
      rw [if_pos rfl, Option.some.inj h]
    · rw [beq_false_of_ne (Ne.symm hk)] at h
      rw [if_neg hk, ih h]

/-- Keys that are there are set in any order. -/
theorem set_comm (hne : key ≠ other) (hkey : (entries.lookup key).isSome)
    (hother : (entries.lookup other).isSome) (value data : Data) :
    (entries.set key value).set other data = (entries.set other data).set key value := by
  induction entries with
  | nil => cases hkey
  | cons entry entries ih =>
    obtain ⟨name, old⟩ := entry
    rw [List.lookup_cons] at hkey hother
    by_cases hk : name = key
    · subst hk
      simp [set, hne]
    · by_cases ho : name = other
      · subst ho
        simp [set, hk]
      · rw [beq_false_of_ne (Ne.symm hk)] at hkey
        rw [beq_false_of_ne (Ne.symm ho)] at hother
        simp [set, hk, ho, ih hkey hother]

end Data.Entries

namespace Config

variable {config : Config} {name other : String} {entries : Entries} {settings : Settings} {path : List String}

/-! ## Changing maps -/

theorem at?_changeMap (key : String) (change : Entries → Entries) (entries : Entries) (other : String)
    (path : List String) : (Data.map (changeMap key change entries)).at? (other :: path) =
      if other = key then (Data.map (change (Data.entriesOf (entries.lookup key)))).at? path
      else (Data.map entries).at? (other :: path) := by
  rw [Data.at?_cons, lookup_changeMap]
  split <;> rfl

theorem updateAt_eq_set {key : String} {inner : Entries} (h : entries.lookup key = some (.map inner))
    (change : Entries → Entries) : updateAt key change entries = entries.set key (.map (change inner)) := by
  rw [updateAt, h]

theorem keys_updateAt (key : String) (change : Entries → Entries) (entries : Entries) :
    (updateAt key change entries).map (·.1) = entries.map (·.1) := by
  unfold updateAt
  split
  · rename_i inner hl
    have hmem : key ∈ entries.map (·.1) := by
      by_contra hnone
      rw [Entries.lookup_eq_none hnone] at hl
      cases hl
    rw [Entries.keys_set, if_pos hmem]
  · rfl

theorem updateAt_of_no_map {key : String} (h : ∀ inner, entries.lookup key ≠ some (.map inner))
    (change : Entries → Entries) : updateAt key change entries = entries := by
  unfold updateAt
  split
  · exact absurd ‹_› (h _)
  · rfl

theorem updateAt_updateAt (key : String) (change next : Entries → Entries) (entries : Entries) :
    updateAt key next (updateAt key change entries) = updateAt key (next ∘ change) entries := by
  by_cases h : ∃ inner, entries.lookup key = some (.map inner)
  · obtain ⟨inner, hl⟩ := h
    rw [updateAt_eq_set hl, updateAt_eq_set hl, updateAt_eq_set (by rw [Entries.lookup_set, if_pos rfl]),
      Entries.set_set]
    rfl
  · have hnone : ∀ inner, entries.lookup key ≠ some (.map inner) := fun inner hl => h ⟨inner, hl⟩
    rw [updateAt_of_no_map hnone, updateAt_of_no_map hnone, updateAt_of_no_map hnone]

/-- Maps at different keys are changed in any order. -/
theorem updateAt_comm {key other : String} (h : key ≠ other) (change next : Entries → Entries) (entries : Entries) :
    updateAt other next (updateAt key change entries) = updateAt key change (updateAt other next entries) := by
  have hother : (updateAt key change entries).lookup other = entries.lookup other := lookup_updateAt_of_ne _ h.symm
  have hkey : (updateAt other next entries).lookup key = entries.lookup key := lookup_updateAt_of_ne _ h
  by_cases hk : ∃ inner, entries.lookup key = some (.map inner)
  · by_cases ho : ∃ inner, entries.lookup other = some (.map inner)
    · obtain ⟨inner, hl⟩ := hk
      obtain ⟨inner', hl'⟩ := ho
      rw [updateAt_eq_set (hother.trans hl'), updateAt_eq_set (hkey.trans hl), updateAt_eq_set hl, updateAt_eq_set hl']
      exact Entries.set_comm h (by simp [hl]) (by simp [hl']) _ _
    · have hnone : ∀ inner, entries.lookup other ≠ some (.map inner) := fun inner hl => ho ⟨inner, hl⟩
      rw [updateAt_of_no_map (hother ▸ hnone), updateAt_of_no_map hnone]
  · have hnone : ∀ inner, entries.lookup key ≠ some (.map inner) := fun inner hl => hk ⟨inner, hl⟩
    rw [updateAt_of_no_map hnone]
    exact (updateAt_of_no_map (fun inner => hkey.symm ▸ hnone inner) change).symm

/-! ## The paths of a project -/

/-- The path of a project in its file. -/
def projectPath (config : Config) (name : String) : List String :=
  if config.isSingle then [] else ["projects", name]

/-- The paths that lead to the settings of a project, to the settings themselves and to what stands under the old
name of the extension. -/
def Touched (project path : List String) : Prop :=
  path <+: project ++ ["extensions", generationKey] ∨ project ++ ["extensions", legacyKey] <+: path ∨
    project ++ ["extensions", generationKey, "output"] <+: path ∨
    project ++ ["extensions", generationKey, "generator"] <+: path

theorem touched_append (project path : List String) : Touched project (project ++ path) ↔ Touched [] path := by
  simp only [Touched, List.prefix_append_right_inj, List.nil_append]

theorem projectPath_applySettings (other : String) :
    (config.applySettings name settings).projectPath other = config.projectPath other := by
  rw [projectPath, projectPath, isSingle_applySettings]

/-- The entries of a project are what its path leads to. -/
theorem at?_projectPath (h : config.projectEntries? name = some entries) :
    (Data.map config.entries).at? (config.projectPath name) = some (.map entries) := by
  rcases projectEntries?_eq_some_iff.1 h with ⟨hs, -, rfl⟩ | ⟨hs, projects, hprojects, hproject⟩
  · simp [projectPath, hs]
  · simp [projectPath, hs, hprojects, hproject]

theorem at?_projectPath_append (h : config.projectEntries? name = some entries) (path : List String) :
    (Data.map config.entries).at? (config.projectPath name ++ path) = (Data.map entries).at? path := by
  rw [Data.at?_append, at?_projectPath h, Option.bind_some]

theorem at?_applySettings_append (h : config.projectEntries? name = some entries) (settings : Settings)
    (path : List String) :
    (Data.map (config.applySettings name settings).entries).at? (config.projectPath name ++ path) =
      (Data.map (withSettings settings entries)).at? path := by
  rw [← @projectPath_applySettings config name settings name]
  exact at?_projectPath_append (projectEntries?_applySettings h settings) path

theorem applySettings_entries (hs : config.isSingle = false) (name : String) (settings : Settings) :
    (config.applySettings name settings).entries =
      updateAt "projects" (updateAt name (withSettings settings)) config.entries := by
  rw [applySettings, if_neg (by simp [hs])]

/-- Paths that part from the path of the project lead where they led before. -/
theorem at?_applySettings_apart (name : String) (settings : Settings) (hbeneath : ¬ config.projectPath name <+: path)
    (habove : ¬ path <+: config.projectPath name) :
    (Data.map (config.applySettings name settings).entries).at? path = (Data.map config.entries).at? path := by
  cases hs : config.isSingle with
  | true => exact absurd (by simp [projectPath, hs]) hbeneath
  | false =>
    simp only [projectPath, hs, Bool.false_eq_true, if_false] at hbeneath habove
    rw [applySettings_entries hs]
    rcases path with _ | ⟨key, _ | ⟨project, path⟩⟩
    · simp at habove
    · have hkey : key ≠ "projects" := by simpa using habove
      rw [Data.at?_cons, Data.at?_cons, lookup_updateAt_of_ne _ hkey]
    · by_cases hkey : key = "projects"
      · subst hkey
        have hproject : project ≠ name := by simpa [eq_comm] using hbeneath
        rw [Data.at?_cons, Data.at?_cons]
        by_cases hprojects : ∃ projects, config.entries.lookup "projects" = some (.map projects)
        · obtain ⟨projects, hl⟩ := hprojects
          rw [updateAt_eq_set hl, Entries.lookup_set, if_pos rfl, hl, Option.bind_some, Option.bind_some, Data.at?_cons,
            Data.at?_cons, lookup_updateAt_of_ne _ hproject]
        · rw [updateAt_of_no_map fun inner hl => hprojects ⟨inner, hl⟩]
      · rw [Data.at?_cons, Data.at?_cons, lookup_updateAt_of_ne _ hkey]

/-! ## What settings leave as it is -/

/-- The extension that generates fragments once settings are applied. -/
def changedGeneration (settings : Settings) (generation : Entries) : Entries :=
  (generation.set "output" (.text settings.output)).set "generator" (.text settings.generator)

/-- The extensions of a project once settings are applied. -/
def changedExtensions (settings : Settings) (extensions : Entries) : Entries :=
  changeMap generationKey (changedGeneration settings) (extensions.remove legacyKey)

theorem at?_withSettings (settings : Settings) (entries : Entries) (key : String) (path : List String) :
    (Data.map (withSettings settings entries)).at? (key :: path) =
      if key = "extensions" then
        (Data.map (changedExtensions settings (Data.entriesOf (entries.lookup "extensions")))).at? path
      else (Data.map entries).at? (key :: path) :=
  at?_changeMap ..

theorem at?_changedExtensions {extensions : Entries} (hu : extensions.Unique) (settings : Settings) (key : String)
    (path : List String) : (Data.map (changedExtensions settings extensions)).at? (key :: path) =
      if key = generationKey then
        (Data.map (changedGeneration settings (Data.entriesOf (extensions.lookup generationKey)))).at? path
      else if key = legacyKey then none else (Data.map extensions).at? (key :: path) := by
  have hlegacy : generationKey ≠ legacyKey := by decide
  rw [changedExtensions, at?_changeMap, Entries.lookup_remove hu, if_neg hlegacy]
  refine if_congr Iff.rfl rfl ?_
  rw [Data.at?_cons, Entries.lookup_remove hu]
  split <;> rfl

theorem at?_changedGeneration (settings : Settings) (generation : Entries) (key : String) (path : List String) :
    (Data.map (changedGeneration settings generation)).at? (key :: path) =
      if key = "generator" then (Data.text settings.generator).at? path
      else if key = "output" then (Data.text settings.output).at? path
      else (Data.map generation).at? (key :: path) := by
  rw [Data.at?_cons, changedGeneration, Entries.lookup_set, Entries.lookup_set, Data.at?_cons]
  split
  · rfl
  · split <;> rfl

theorem at?_withSettings_of_untouched (hd : (Data.map entries).Distinct) (h : ¬ Touched [] path)
    (settings : Settings) : (Data.map (withSettings settings entries)).at? path = (Data.map entries).at? path := by
  simp only [Touched, not_or, List.nil_append] at h
  obtain ⟨hway, hlegacy, houtput, hgenerator⟩ := h
  have hu : (Data.entriesOf (entries.lookup "extensions")).Unique := (hd.getD "extensions").unique
  rcases path with _ | ⟨key, path⟩
  · simp at hway
  rw [at?_withSettings]
  split
  · rename_i hkey
    subst hkey
    rcases path with _ | ⟨key, path⟩
    · simp at hway
    rw [at?_changedExtensions hu, Data.at?_cons _ (key :: path), Data.bind_at?_cons]
    split
    · rename_i hkey
      subst hkey
      rcases path with _ | ⟨key, path⟩
      · simp at hway
      rw [at?_changedGeneration, if_neg (by rintro rfl; simp at hgenerator), if_neg (by rintro rfl; simp at houtput),
        Data.at?_cons _ (key :: path), Data.bind_at?_cons]
    · split
      · rename_i hkey
        subst hkey
        simp at hlegacy
      · rfl
  · rfl

/-- All paths that settings do not touch lead where they led before. -/
theorem at?_applySettings_of_untouched (hd : (Data.map config.entries).Distinct)
    (he : config.projectEntries? name = some entries) (h : ¬ Touched (config.projectPath name) path)
    (settings : Settings) :
    (Data.map (config.applySettings name settings).entries).at? path = (Data.map config.entries).at? path := by
  by_cases hbeneath : config.projectPath name <+: path
  · obtain ⟨path, rfl⟩ := hbeneath
    rw [touched_append] at h
    rw [at?_applySettings_append he, at?_projectPath_append he,
      at?_withSettings_of_untouched (distinct_projectEntries? hd he) h]
  · exact at?_applySettings_apart name settings hbeneath fun habove => h (.inl (habove.trans (List.prefix_append _ _)))

end Config

end SchemaFragments
