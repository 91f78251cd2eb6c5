import SchemaFragments.Config.Plan
import SchemaFragments.Proofs.DistinctKeys
import SchemaFragments.Proofs.Paths
/-!
# Saved settings

What a configuration says about a project once the settings of a job are applied, and when planning the project
again gives the same job: `plan_saved_iff`.
-/

namespace SchemaFragments

open Data (Entries)

namespace Config

variable {config : Config} {name : String} {entries : Entries} {settings : Settings}

/-! ## The project of a configuration -/

theorem lookup_changeMap (key : String) (change : Entries → Entries) (entries : Entries) (other : String) :
    (changeMap key change entries).lookup other =
      if other = key then some (.map (change (((entries.lookup key).bind Data.entries?).getD []))) else entries.lookup other :=
  Entries.lookup_set _ _ _ _

theorem unique_changeMap (hu : entries.Unique) (key : String) (change : Entries → Entries) :
    (changeMap key change entries).Unique := hu.set _ _

theorem isSingle_set {key : String} (value : Data) (hprojects : key ≠ "projects") (hschema : key ≠ "schemaPath") :
    ({ config with entries := config.entries.set key value } : Config).isSingle = config.isSingle := by
  simp only [isSingle, Entries.lookup_set, if_neg (Ne.symm hprojects), if_neg (Ne.symm hschema)]

/-- The entries of a project are those of the file, or those under its name. -/
theorem projectEntries?_eq_some_iff : config.projectEntries? name = some entries ↔
    config.isSingle = true ∧ name = defaultProject ∧ config.entries = entries ∨
      config.isSingle = false ∧ ∃ projects, config.entries.lookup "projects" = some (.map projects) ∧
        projects.lookup name = some (.map entries) := by
  have hmap (value : Data) (inner : Entries) : value.entries? = some inner ↔ value = .map inner := by
    cases value <;> simp [Data.entries?]
  unfold projectEntries?
  cases config.isSingle with
  | true => simp [ite_eq_iff]
  | false => simp [Option.bind_eq_some_iff, bind, hmap]

/-- Settings are applied to the entries of their project. -/
theorem projectEntries?_applySettings (h : config.projectEntries? name = some entries) (settings : Settings) :
    (config.applySettings name settings).projectEntries? name = some (withSettings settings entries) := by
  rcases projectEntries?_eq_some_iff.1 h with ⟨hs, hn, he⟩ | ⟨hs, projects, hprojects, hproject⟩
  · rw [applySettings, if_pos hs, if_pos hn]
    refine projectEntries?_eq_some_iff.2 (.inl ⟨?_, hn, by rw [he]⟩)
    rw [← hs]
    exact isSingle_set _ (by decide) (by decide)
  · have hentries : updateAt "projects" (updateAt name (withSettings settings)) config.entries =
        config.entries.set "projects" (.map (Entries.set name (.map (withSettings settings entries)) projects)) := by
      simp only [updateAt, hprojects, hproject]
    rw [applySettings, if_neg (ne_true_of_eq_false hs), hentries]
    refine projectEntries?_eq_some_iff.2 (.inr ⟨?_, Entries.set name (.map (withSettings settings entries)) projects, ?_, ?_⟩)
    · simp [isSingle, Entries.lookup_set]
    · rw [Entries.lookup_set, if_pos rfl]
    · rw [Entries.lookup_set, if_pos rfl]

/-- The entries of a project hold no key twice either. -/
theorem distinct_projectEntries? (hd : (Data.map config.entries).Distinct) (h : config.projectEntries? name = some entries) :
    (Data.map entries).Distinct := by
  rcases projectEntries?_eq_some_iff.1 h with ⟨-, -, rfl⟩ | ⟨-, projects, hprojects, hproject⟩
  · exact hd
  · exact (hd.of_lookup hprojects).of_lookup hproject

/-! ## What is read back -/

/-- The extensions that stay when settings are applied: a list is not kept. -/
def keptExtensions (entries : Entries) (project : Project) : Extensions :=
  match entries.lookup "extensions" with
  | some (.list _) => {}
  | _ => project.extensions

/-- A project as it is read once settings are applied. -/
def Project.saved (entries : Entries) (project : Project) (settings : Settings) : Project :=
  { project with extensions :=
    { keptExtensions entries project with
      generation := some ⟨some settings.output, some settings.generator⟩
      legacy := false } }

theorem setAll_generation {generation : Entries} (hu : generation.Unique) (output generator : String) :
    Generation.kind.setAll ((generation.set "output" (.text output)).set "generator" (.text generator)) =
      .ok ⟨some output, some generator⟩ := by
  refine (RecordKind.setAll_eq_ok_iff Generation.hasSlots ((hu.set _ _).set _ _)).2 ?_
  simp [Generation.slots, Entries.lookup_set, Slot.readAt, readOptional, readText, Functor.map, Except.map]

theorem setAll_extensions {extensions : Entries} {read : Extensions} (hd : (Data.map extensions).Distinct)
    (h : Extensions.kind.setAll extensions = .ok read) (settings : Settings) :
    Extensions.kind.setAll (changeMap generationKey (fun generation =>
        (generation.set "output" (.text settings.output)).set "generator" (.text settings.generator))
        (extensions.remove legacyKey)) =
      .ok { read with generation := some ⟨some settings.output, some settings.generator⟩, legacy := false } := by
  have hu := hd.unique
  rw [RecordKind.setAll_eq_ok_iff Extensions.hasSlots hu] at h
  rw [RecordKind.setAll_eq_ok_iff Extensions.hasSlots (unique_changeMap (hu.remove _) _ _)]
  simp only [Extensions.slots, List.forall_mem_cons] at h ⊢
  obtain ⟨-, -, hprepare, hbundle, -⟩ := h
  simp only [lookup_changeMap, Entries.lookup_remove hu]
  refine ⟨?_, ?_, ?_, ?_, by simp⟩
  · rw [if_true, if_neg (by decide : generationKey ≠ legacyKey)]
    have hread := setAll_generation (hd.getD generationKey).unique settings.output settings.generator
    simp only [Slot.readAt, readOptional, RecordKind.read, hread]
    rfl
  · rw [if_neg (by decide : legacyKey ≠ generationKey), if_true]
    rfl
  · rw [if_neg (by decide : "prepare-bundle" ≠ generationKey), if_neg (by decide : "prepare-bundle" ≠ legacyKey)]
    exact hprepare
  · rw [if_neg (by decide : "bundle" ≠ generationKey), if_neg (by decide : "bundle" ≠ legacyKey)]
    exact hbundle

/-- What is read of a map, once it is changed, is read of no entries where there is no map. -/
theorem read_withSettings {project : Project} (hd : (Data.map entries).Distinct)
    (h : Project.kind.read (.map entries) = .ok project) (settings : Settings) :
    Project.kind.read (.map (withSettings settings entries)) = .ok (project.saved entries settings) := by
  have hu := hd.unique
  rw [RecordKind.read, RecordKind.setAll_eq_ok_iff Project.hasSlots hu] at h
  rw [RecordKind.read, withSettings, RecordKind.setAll_eq_ok_iff Project.hasSlots (unique_changeMap hu _ _)]
  simp only [Project.slots, List.forall_mem_cons] at h ⊢
  obtain ⟨hschema, hextensions, -⟩ := h
  simp only [lookup_changeMap]
  refine ⟨?_, ?_, by simp⟩
  · rw [if_neg (by decide : "schemaPath" ≠ "extensions")]
    exact hschema
  · rw [if_true]
    have hempty := @setAll_extensions [] {} Data.distinct_nil rfl settings
    cases hl : entries.lookup "extensions" with
    | none =>
      rw [hl] at hextensions
      have hkept : keptExtensions entries project = {} := by
        rw [keptExtensions, hl]
        exact (Except.ok.inj hextensions).symm
      rw [Project.saved, hkept]
      exact hempty
    | some value =>
      rw [hl] at hextensions
      cases value with
      | map inner =>
        have hkept : keptExtensions entries project = project.extensions := by rw [keptExtensions, hl]
        rw [Project.saved, hkept]
        exact setAll_extensions (hd.of_lookup hl) hextensions settings
      | list items =>
        have hkept : keptExtensions entries project = {} := by rw [keptExtensions, hl]
        rw [Project.saved, hkept]
        exact hempty
      | null | boolean | integer | float | text => cases hextensions

/-! ## Planning -/

variable {tree : FileTree} {options : Options} {job : Job} {project : Project} {schema : Path}

theorem project_eq_ok_iff : config.project name = .ok project ↔
    ∃ entries, config.projectEntries? name = some entries ∧ Project.kind.read (.map entries) = .ok project := by
  unfold Config.project
  cases config.projectEntries? name with
  | none => simp
  | some entries =>
    cases h : Project.kind.read (.map entries) with
    | ok read => simp [h]
    | error error => simp [h]

theorem schemaOf_eq_ok_iff : config.schemaOf tree project = .ok schema ↔
    ∃ setting, project.schema? = some setting ∧ config.directory.join ⟨setting⟩ = schema ∧ tree.isFile schema = true := by
  unfold schemaOf
  cases project.schema? with
  | none => simp
  | some setting =>
    constructor
    · intro h
      dsimp only at h
      split at h
      · cases h
        exact ⟨setting, rfl, rfl, ‹_›⟩
      · cases h
    · rintro ⟨_, ⟨rfl⟩, rfl, hfile⟩
      exact if_pos hfile

/-- What it takes for a job to be planned. -/
theorem plan_eq_some_iff : config.plan tree name options = .ok (some job) ↔
    ∃ project, config.project name = .ok project ∧ (options.projects.isEmpty && !project.isConfigured) = false ∧
      (options.generator <|> project.generator?) = some job.settings.generator ∧
      config.outputOf tree.workingPath name options project (Dialect.ofGenerator job.settings.generator) =
        .ok (job.output, job.settings.output) ∧
      config.schemaOf tree project = .ok job.schema ∧
      job.project = name ∧ job.dialect = Dialect.ofGenerator job.settings.generator := by
  unfold plan
  constructor
  · intro h
    obtain ⟨project, hproject, h⟩ := exists_ok_of_bind h
    split at h
    · cases h
    · rename_i hasked
      split at h
      · cases h
      · rename_i generator hgenerator
        obtain ⟨⟨output, setting⟩, houtput, h⟩ := exists_ok_of_bind h
        obtain ⟨schema, hschema, h⟩ := exists_ok_of_bind h
        cases h
        exact ⟨project, hproject, eq_false_of_ne_true hasked, hgenerator, houtput, hschema, rfl, rfl⟩
  · rintro ⟨project, hproject, hasked, hgenerator, houtput, hschema, hname, hdialect⟩
    obtain ⟨jobName, jobSchema, jobOutput, jobDialect, setting, generator⟩ := job
    dsimp only at hgenerator houtput hschema hname hdialect
    subst hname hdialect
    simp only [hproject, hasked, hgenerator, houtput, hschema, bind, Except.bind, pure, Except.pure]
    rfl

/-! ## Planning again -/

theorem directory_text_ne (config : Config) : config.directory.text ≠ "" := by
  unfold directory
  split
  · split
    · decide
    · rename_i hne
      exact fun h => hne (String.isEmpty_iff.2 h)
  · decide

theorem workingPath_text_ne (tree : FileTree) : tree.workingPath.text ≠ "" := by
  unfold FileTree.workingPath
  intro h
  simpa using congrArg String.toList h

theorem directory_applySettings (name : String) (settings : Settings) :
    (config.applySettings name settings).directory = config.directory := by
  unfold applySettings
  split
  · split <;> rfl
  · rfl

/-- The schema stays the same: a list of extensions may hold a bundle, which is lost. -/
def KeepsSchema (config : Config) (name : String) (schema : Path) : Prop :=
  ∀ entries items, config.projectEntries? name = some entries → entries.lookup "extensions" = some (.list items) →
    ∃ path, entries.lookup "schemaPath" = some (.text path) ∧ config.directory.join ⟨path⟩ = schema

/-- The output stays the same: what is set for it starts from the directory of the configuration, while the command
line starts from the working directory. -/
def KeepsOutput (config : Config) (working : Path) (options : Options) (output : Path) : Prop :=
  options.outputDirectory = none ∨ output.isAbsolute = true ∨
    (Path.relativeTo working config.directory output).isSome = true ∨
    working.normal.above output.climb = (working.join config.directory).normal.above output.climb

theorem project_applySettings (hd : (Data.map entries).Distinct) (he : config.projectEntries? name = some entries)
    (h : Project.kind.read (.map entries) = .ok project) (settings : Settings) :
    (config.applySettings name settings).project name = .ok (project.saved entries settings) :=
  project_eq_ok_iff.2 ⟨_, projectEntries?_applySettings he settings, read_withSettings hd h settings⟩

theorem schemaPath_eq_some_iff {path : String} (hu : entries.Unique) (h : Project.kind.read (.map entries) = .ok project) :
    project.schemaPath = some path ↔ entries.lookup "schemaPath" = some (.text path) := by
  rw [RecordKind.read, RecordKind.setAll_eq_ok_iff Project.hasSlots hu] at h
  have hread := h _ (.head _)
  dsimp only at hread
  cases hl : entries.lookup "schemaPath" with
  | none =>
    rw [hl] at hread
    simp [← Except.ok.inj hread]
  | some value =>
    rw [hl] at hread
    cases value with
    | null => simp [← Except.ok.inj hread]
    | text other => simp [← Except.ok.inj hread]
    | boolean | integer | float | list | map => cases hread

theorem schemaOf_saved_iff (hu : entries.Unique) (he : config.projectEntries? name = some entries)
    (h : Project.kind.read (.map entries) = .ok project) (hschema : config.schemaOf tree project = .ok schema)
    (settings : Settings) :
    config.schemaOf tree (project.saved entries settings) = .ok schema ↔ config.KeepsSchema name schema := by
  have hfile : tree.isFile schema = true := by
    obtain ⟨setting, -, -, hfile⟩ := schemaOf_eq_ok_iff.1 hschema
    exact hfile
  by_cases hl : ∃ items, entries.lookup "extensions" = some (.list items)
  · obtain ⟨items, hl⟩ := hl
    have hkept : (project.saved entries settings).schema? = project.schemaPath := by
      simp [Project.schema?, Project.prepareBundle?, Project.bundle?, Project.saved, keptExtensions, hl]
    rw [schemaOf_eq_ok_iff, hkept]
    simp only [schemaPath_eq_some_iff hu h, hfile, and_true]
    constructor
    · rintro hpath entries' - he' -
      rw [he] at he'
      cases he'
      exact hpath
    · exact fun hkeeps => hkeeps entries items he hl
  · have hkept : keptExtensions entries project = project.extensions := by
      unfold keptExtensions
      split
      · exact absurd ⟨_, ‹_›⟩ hl
      · rfl
    refine iff_of_true (Eq.trans ?_ hschema) fun entries' items he' hl' => ?_
    · simp only [schemaOf, Project.schema?, Project.prepareBundle?, Project.bundle?, Project.saved, hkept]
    · rw [he] at he'
      cases he'
      exact absurd ⟨_, hl'⟩ hl

theorem output_saved_iff {dialect : Dialect} {output : Path} {setting : String}
    (h : config.outputOf tree.workingPath name options project dialect = .ok (output, setting)) :
    (tree.workingPath.join (config.directory.join ⟨setting⟩)).normal = (tree.workingPath.join output).normal ↔
      config.KeepsOutput tree.workingPath options output := by
  unfold outputOf at h
  cases hdirectory : options.outputDirectory with
  | none =>
    rw [hdirectory] at h
    cases houtput : project.output? with
    | none => rw [houtput] at h; cases h
    | some configured =>
      rw [houtput] at h
      cases h
      exact iff_of_true rfl (.inl hdirectory)
  | some directory =>
    rw [hdirectory] at h
    cases h
    rw [Path.normal_join_getD_iff (directory_text_ne config) (workingPath_text_ne tree), KeepsOutput, hdirectory]
    simp

/-- The job that is planned again, where nothing is asked for but what was saved. -/
theorem plan_applySettings_iff {again : Job}
    (hsaved : (config.applySettings name settings).project name = .ok (project.saved entries settings))
    (projects : List String) :
    (config.applySettings name settings).plan tree name ⟨projects, none, none⟩ = .ok (some again) ↔
      config.schemaOf tree (project.saved entries settings) = .ok again.schema ∧
        again.output = config.directory.join ⟨settings.output⟩ ∧ again.settings = settings ∧ again.project = name ∧
        again.dialect = Dialect.ofGenerator settings.generator := by
  have hconfigured : (project.saved entries settings).isConfigured = true := rfl
  have hgenerator : (project.saved entries settings).generator? = some settings.generator := rfl
  have houtput (dialect : Dialect) : (config.applySettings name settings).outputOf tree.workingPath name
      ⟨projects, none, none⟩ (project.saved entries settings) dialect =
        .ok (config.directory.join ⟨settings.output⟩, settings.output) := by
    rw [← directory_applySettings name settings]
    rfl
  rw [plan_eq_some_iff]
  simp only [hsaved, Except.ok.injEq, exists_eq_left', hconfigured, hgenerator, houtput, Bool.not_true, Bool.and_false,
    Option.orElse_none, Option.orElse_eq_orElse, true_and]
  rw [schemaOf_eq_ok_iff, schemaOf_eq_ok_iff, directory_applySettings]
  constructor
  · intro h
    obtain ⟨_, _, _, _, output, generator⟩ := again
    obtain ⟨⟨⟩, ⟨⟩, hschema, hname, hdialect⟩ := h
    exact ⟨hschema, rfl, rfl, hname, hdialect⟩
  · rintro ⟨hschema, houtput, rfl, hname, hdialect⟩
    exact ⟨rfl, by rw [houtput], hschema, hname, hdialect⟩

/-- A project that is planned again, with nothing asked for, has the job it was saved with exactly if its schema and its
output stay. -/
theorem plan_saved_iff (hd : (Data.map config.entries).Distinct)
    (h : config.plan tree name options = .ok (some job)) (projects : List String) :
    (∃ again, (config.applySettings name job.settings).plan tree name ⟨projects, none, none⟩ = .ok (some again) ∧
        again.schema = job.schema ∧ again.dialect = job.dialect ∧ again.settings = job.settings ∧
        (tree.workingPath.join again.output).normal = (tree.workingPath.join job.output).normal) ↔
      config.KeepsSchema name job.schema ∧ config.KeepsOutput tree.workingPath options job.output := by
  obtain ⟨project, hproject, -, -, houtput, hschema, -, hdialect⟩ := plan_eq_some_iff.1 h
  obtain ⟨entries, he, hread⟩ := project_eq_ok_iff.1 hproject
  have hentries : (Data.map entries).Distinct := distinct_projectEntries? hd he
  have hsaved := project_applySettings hentries he hread job.settings
  rw [← schemaOf_saved_iff hentries.unique he hread hschema job.settings, ← output_saved_iff houtput]
  simp only [plan_applySettings_iff hsaved]
  constructor
  · rintro ⟨again, ⟨hschema', houtput', -⟩, hsame, -, -, hnormal⟩
    rw [← hsame, ← houtput']
    exact ⟨hschema', hnormal⟩
  · rintro ⟨hschema', hnormal⟩
    exact ⟨⟨name, job.schema, config.directory.join ⟨job.settings.output⟩, job.dialect, job.settings⟩,
      ⟨hschema', rfl, rfl, rfl, hdialect⟩, rfl, rfl, rfl, hnormal⟩

/-! ## An output beneath the configuration, and one that is not -/

/-- A configuration in a directory, with the schema of its one project next to it. -/
def nestedConfig : Config := ⟨⟨"c/.f"⟩, .json, [("schemaPath", .text "s")]⟩

def nestedTree : FileTree := ⟨[], [(["c"], .directory), (["c", "s"], .file (some "type A\n"))]⟩

def nestedOptions (directory : String) : Options := ⟨["default"], some ⟨directory⟩, some "graphql"⟩

def nestedJob (output setting : String) : Job := ⟨"default", ⟨"c/s"⟩, ⟨output⟩, .graphql, ⟨setting, "graphql"⟩⟩

theorem directory_nestedConfig : nestedConfig.directory = ⟨"c"⟩ := by cbv

theorem distinct_nestedConfig : (Data.map nestedConfig.entries).Distinct :=
  .map (List.nodup_singleton _) (List.forall_mem_singleton.2 (.text _))

theorem dialect_nestedJob : Dialect.ofGenerator "graphql" = .graphql := by decide +kernel

theorem schemaOf_nestedConfig {extensions : Extensions} (hp : extensions.prepareBundle = none)
    (hb : extensions.bundle = none) : nestedConfig.schemaOf nestedTree ⟨some "s", extensions⟩ = .ok ⟨"c/s"⟩ := by
  have hschema : Project.schema? ⟨some "s", extensions⟩ = some "s" := by
    simp [Project.schema?, Project.prepareBundle?, Project.bundle?, hp, hb]
  refine schemaOf_eq_ok_iff.2 ⟨"s", hschema, ?_, by cbv⟩
  rw [directory_nestedConfig]
  decide +kernel

theorem plan_nestedConfig (directory output setting : String)
    (houtput : (Path.mk directory).join ⟨"default.fragments.graphql"⟩ = ⟨output⟩)
    (hsetting : (Path.relativeTo nestedTree.workingPath ⟨"c"⟩ ⟨output⟩).getD ⟨output⟩ = ⟨setting⟩) :
    nestedConfig.plan nestedTree "default" (nestedOptions directory) = .ok (some (nestedJob output setting)) := by
  refine plan_eq_some_iff.2 ⟨⟨some "s", {}⟩, rfl, rfl, rfl, ?_, schemaOf_nestedConfig rfl rfl, rfl,
    dialect_nestedJob.symm⟩
  have hname : (Path.mk directory).join ⟨"default" ++ ".fragments." ++ Dialect.graphql.extension⟩ = ⟨output⟩ := houtput
  simp only [outputOf, nestedOptions, nestedJob, directory_nestedConfig, dialect_nestedJob, hname, hsetting]

theorem nestedConfig_saved_beneath : ∃ again, (nestedConfig.applySettings "default"
      ⟨"d/default.fragments.graphql", "graphql"⟩).plan nestedTree "default" ⟨[], none, none⟩ = .ok (some again) ∧
    again.schema = ⟨"c/s"⟩ ∧ again.dialect = .graphql ∧ again.settings = ⟨"d/default.fragments.graphql", "graphql"⟩ ∧
    (nestedTree.workingPath.join again.output).normal =
      (nestedTree.workingPath.join ⟨"c/d/default.fragments.graphql"⟩).normal := by
  have hplan := plan_nestedConfig "c/d" "c/d/default.fragments.graphql" "d/default.fragments.graphql"
    (by decide +kernel) (by decide +kernel)
  refine (plan_saved_iff distinct_nestedConfig hplan []).2 ⟨?_, .inr (.inr (.inl ?_))⟩
  · rintro _ _ ⟨⟩ hextensions
    cases hextensions
  · rw [directory_nestedConfig]
    decide +kernel

/-- The output that is set for `d` is read as one in `c`. -/
theorem nestedConfig_saved_elsewhere :
    nestedConfig.plan nestedTree "default" (nestedOptions "d") =
        .ok (some (nestedJob "d/default.fragments.graphql" "d/default.fragments.graphql")) ∧
      (nestedConfig.applySettings "default" ⟨"d/default.fragments.graphql", "graphql"⟩).plan nestedTree "default"
          ⟨[], none, none⟩ = .ok (some (nestedJob "c/d/default.fragments.graphql" "d/default.fragments.graphql")) ∧
      (nestedTree.workingPath.join ⟨"c/d/default.fragments.graphql"⟩).normal ≠
        (nestedTree.workingPath.join ⟨"d/default.fragments.graphql"⟩).normal := by
  refine ⟨plan_nestedConfig "d" _ _ (by decide +kernel) (by decide +kernel), ?_, by decide +kernel⟩
  have hsaved := @project_applySettings nestedConfig "default" _ ⟨some "s", {}⟩ distinct_nestedConfig rfl rfl
    ⟨"d/default.fragments.graphql", "graphql"⟩
  refine (plan_applySettings_iff hsaved []).2 ⟨schemaOf_nestedConfig rfl rfl, ?_, rfl, rfl, dialect_nestedJob.symm⟩
  rw [directory_nestedConfig]
  decide +kernel

end Config

end SchemaFragments
