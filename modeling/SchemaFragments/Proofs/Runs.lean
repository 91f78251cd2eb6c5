import SchemaFragments.Proofs.FailedJobs
import SchemaFragments.Proofs.Failures
import SchemaFragments.Proofs.Projects
import SchemaFragments.Proofs.Saving
/-!
# What a run comes to

The projects that are selected, the exit status and the files of a run, from what becomes of the single
projects: `run_settles`.
-/

namespace SchemaFragments

namespace Run

variable {options : Options} {cores : Nat} {tree : FileTree} {config : Config} {projects : List String}

/-! ## How a run starts -/

/-- The path of the configuration file. -/
def configPath (tree : FileTree) (options : Options) : Except Config.Problem Path :=
  match options.config with
  | some path => .ok path
  | none => Config.discover tree tree.workingPath

theorem start_eq (tree : FileTree) (options : Options) : start tree options =
    configPath tree options >>= fun path => Config.read tree path >>= fun config =>
      config.select options.project >>= fun projects => .ok (config, projects) := by
  unfold start configPath
  cases options.config <;> rfl

/-- A run that starts has read its configuration and found every project that is asked for. -/
theorem of_start (h : start tree options = .ok (config, projects)) :
    (∃ text, tree.read config.path = .ok text ∧ Config.ofText config.path text = .ok config) ∧
      config.select options.project = .ok projects := by
  rw [start_eq] at h
  obtain ⟨path, -, h⟩ := exists_ok_of_bind h
  obtain ⟨read, hread, h⟩ := exists_ok_of_bind h
  obtain ⟨selected, hselect, h⟩ := exists_ok_of_bind h
  cases h
  obtain ⟨text, htext, hconfig⟩ := Config.exists_text_of_read hread
  rw [Config.path_ofText hconfig]
  exact ⟨⟨text, htext, hconfig⟩, hselect⟩

/-- A run starts exactly if its configuration is read and has every project that is asked for. -/
theorem exists_start_iff : (∃ config projects, start tree options = .ok (config, projects)) ↔
    ∃ path config known, configPath tree options = .ok path ∧ Config.read tree path = .ok config ∧
      config.projectNames = .ok known ∧ ∀ name ∈ options.project.projects, name ∈ known := by
  rw [start_eq]
  constructor
  · rintro ⟨config, projects, h⟩
    obtain ⟨path, hpath, h⟩ := exists_ok_of_bind h
    obtain ⟨read, hread, h⟩ := exists_ok_of_bind h
    obtain ⟨selected, hselect, -⟩ := exists_ok_of_bind h
    obtain ⟨known, hnames, hknown⟩ := Config.exists_select_iff.1 ⟨selected, hselect⟩
    exact ⟨path, read, known, hpath, hread, hnames, hknown⟩
  · rintro ⟨path, config, known, hpath, hread, hnames, hknown⟩
    obtain ⟨projects, hselect⟩ := Config.exists_select_iff.2 ⟨known, hnames, hknown⟩
    exact ⟨config, projects, by simp only [hpath, hread, hselect, bind, Except.bind]⟩

/-- What keeps a run from starting. -/
inductive Refuses (tree : FileTree) (options : Options) : Config.Problem → Prop
  | notFound (h : options.config = none) : Refuses tree options (.notFound tree.workingPath)
  | unreadable {path : Path} {error : FileError} (hpath : configPath tree options = .ok path)
      (h : tree.read path = .error error) : Refuses tree options (.unreadable path error)
  | malformed {path : Path} {text : String} {fault : Config.Fault} (hpath : configPath tree options = .ok path)
      (hread : tree.read path = .ok text) (h : fault.isMalformed = true) : Refuses tree options (.inFile path fault)
  | projects {path : Path} {config : Config} {fault : Config.Fault} (hpath : configPath tree options = .ok path)
      (hread : Config.read tree path = .ok config) (h : config.Unselectable options.project fault) :
      Refuses tree options (.inFile path fault)

theorem refuses_of_start {problem : Config.Problem} (h : start tree options = .error problem) :
    Refuses tree options problem := by
  rw [start_eq] at h
  rcases error_of_bind h with hpath | ⟨path, hpath, h⟩
  · unfold configPath at hpath
    split at hpath
    · cases hpath
    · rename_i hnone
      unfold Config.discover at hpath
      split at hpath <;> cases hpath
      exact .notFound hnone
  rcases error_of_bind h with hread | ⟨config, hread, h⟩
  · unfold Config.read at hread
    split at hread
    · rename_i text htext
      obtain ⟨fault, rfl, hfault⟩ := Config.fault_of_ofText hread
      exact .malformed hpath htext hfault
    · rename_i error herror
      cases hread
      exact .unreadable hpath herror
  rcases error_of_bind h with hselect | ⟨_, _, h⟩
  · obtain ⟨fault, rfl, hfault⟩ := Config.unselectable_of_select hselect
    obtain ⟨text, -, htext⟩ := Config.exists_text_of_read hread
    rw [Config.fault, Config.path_ofText htext]
    exact .projects hpath hread hfault
  · cases h

/-! ## Jobs of a run -/

/-- The jobs of the selected projects, in their order. -/
def plannedJobs (config : Config) (tree : FileTree) (options : Options) (projects : List String) : List Job :=
  projects.filterMap fun name => (prepare config tree options name).job?

/-- What is reported of the jobs of a run, and the files as they leave them. -/
def ranJobs (config : Config) (tree : FileTree) (options : Options) (cores : Nat) (projects : List String) :
    List Report × FileTree :=
  Pool.run (workerCount options cores) (plannedJobs config tree options projects) tree

/-- The jobs whose fragments were written. -/
def writtenJobs (reports : List Report) : List Job := (reports.filter (·.outcome.isWritten)).map (·.job)

theorem applyReports_eq (config : Config) (reports : List Report) :
    applyReports config reports = config.applyAll (writtenJobs reports) := by
  rw [applyReports, Config.applyAll, writtenJobs, List.foldl_map]

theorem project_of_prepare {name : String} {job : Job} (h : (prepare config tree options name).job? = some job) :
    job.project = name := by
  unfold prepare at h
  split at h
  · rename_i planned hplan
    cases h
    obtain ⟨-, -, -, -, -, -, hname, -⟩ := Config.plan_eq_some_iff.1 hplan
    exact hname
  all_goals cases h

/-- There is at most one job for each project, in the order of the projects. -/
theorem map_project_plannedJobs (config : Config) (tree : FileTree) (options : Options) (projects : List String) :
    ((plannedJobs config tree options projects).map (·.project)).Sublist projects := by
  induction projects with
  | nil => exact .slnil
  | cons name projects ih =>
    unfold plannedJobs at ih ⊢
    rw [List.filterMap_cons]
    split
    · exact ih.cons name
    · rename_i job hjob
      rw [List.map_cons, project_of_prepare hjob]
      exact ih.cons_cons name

theorem run_eq (h : start tree options = .ok (config, projects)) : run options cores tree =
    let prepared := projects.map (prepare config tree options)
    let ran := ranJobs config tree options cores projects
    let saved := if options.save then save config ran.1 ran.2 else ([], ran.2)
    ⟨prepared.flatMap (Preparation.messages options.verbose) ++ ran.1.flatMap reportMessages ++ saved.1, saved.2⟩ := by
  have hjobs : (projects.map (prepare config tree options)).filterMap Preparation.job? =
      plannedJobs config tree options projects := List.filterMap_map ..
  simp only [run, h, process, hjobs, ranJobs]

/-! ## Saving -/

theorem save_of_none {reports : List Report} (h : writtenJobs reports = []) :
    (save config reports tree).2 = tree ∧ (save config reports tree).1.any (·.isFailure) = false := by
  rw [writtenJobs, List.map_eq_nil_iff] at h
  simp only [save, h]
  exact ⟨trivial, rfl⟩

theorem save_of_some {reports : List Report} (h : writtenJobs reports ≠ []) :
    (save config reports tree).2 = ((config.applyAll (writtenJobs reports)).save tree).toOption.getD tree ∧
      ((save config reports tree).1.any (·.isFailure) = true ↔
        ∃ problem, (config.applyAll (writtenJobs reports)).save tree = .error problem) := by
  have hsome : reports.filter (·.outcome.isWritten) ≠ [] := fun hnil => h (by rw [writtenJobs, hnil, List.map_nil])
  rw [save, applyReports_eq]
  split
  · exact absurd ‹_› hsome
  · split
    · rename_i problem hproblem
      rw [hproblem]
      exact ⟨rfl, iff_of_true (by simpa using problem.isFailure_message) ⟨problem, rfl⟩⟩
    · rename_i files hfiles
      rw [hfiles]
      refine ⟨rfl, iff_of_false ?_ ?_⟩
      · simp [Message.isFailure, Message.Level.isFailure]
      · rintro ⟨problem, hproblem⟩
        cases hproblem

/-- A configuration that is saved is read again as it was printed. -/
theorem readAt_save {jobs : List Job} {files : FileTree} {location : Location} {old : String}
    (hread : tree.readAt config.path = .ok (location, old)) (h : (config.applyAll jobs).save tree = .ok files) :
    files.readAt config.path = .ok (location, (config.applyAll jobs).text) ∧
      ∀ other ≠ location, files.entryAt other = tree.entryAt other := by
  rw [Config.save, Config.path_applyAll] at h
  split at h
  · rename_i written hwrite
    cases h
    exact FileTree.readAt_write hread hwrite
  · cases h

/-! ## The exit status -/

theorem exitStatus_eq_one_iff {result : Result} :
    result.exitStatus = 1 ↔ result.messages.any (·.isFailure) = true := by
  rw [Result.exitStatus]
  split <;> simp_all

theorem isFailed_prepare {name : String} :
    (prepare config tree options name).isFailed = true ↔
      ∃ problem, config.plan tree name options.project = .error problem := by
  unfold prepare
  cases config.plan tree name options.project with
  | error problem => exact iff_of_true rfl ⟨problem, rfl⟩
  | ok job? => cases job? <;> simp [Preparation.isFailed]

theorem any_preparations (verbose : Bool) :
    ((projects.map (prepare config tree options)).flatMap (Preparation.messages verbose)).any (·.isFailure) = true ↔
      ∃ name ∈ projects, ∃ problem, config.plan tree name options.project = .error problem := by
  simp only [List.any_flatMap, any_preparationMessages, List.any_map, List.any_eq_true, Function.comp, isFailed_prepare]

theorem any_reports {workers : Nat} {jobs : List Job} :
    ((Pool.run workers jobs tree).1.flatMap reportMessages).any (·.isFailure) = true ↔
      ∃ report ∈ (Pool.run workers jobs tree).1, report.outcome.isWritten = false := by
  rw [List.any_flatMap, List.any_eq_true]
  refine exists_congr fun report => and_congr_right fun hm => ?_
  rw [any_reportMessages hm, Bool.not_eq_true']

/-- A run that starts fails exactly if a project cannot be planned, a job does not write its fragments, or the
configuration is to be saved and cannot be. -/
theorem exitStatus_run (h : start tree options = .ok (config, projects)) :
    (run options cores tree).exitStatus = 1 ↔
      (∃ name ∈ projects, ∃ problem, config.plan tree name options.project = .error problem) ∨
      (∃ report ∈ (ranJobs config tree options cores projects).1, report.outcome.isWritten = false) ∨
      (options.save = true ∧ writtenJobs (ranJobs config tree options cores projects).1 ≠ [] ∧
        ∃ problem, (config.applyAll (writtenJobs (ranJobs config tree options cores projects).1)).save
          (ranJobs config tree options cores projects).2 = .error problem) := by
  rw [exitStatus_eq_one_iff, run_eq h]
  simp only [List.any_append, Bool.or_eq_true, any_preparations, or_assoc]
  refine or_congr Iff.rfl (or_congr any_reports ?_)
  cases hsave : options.save with
  | false => simp
  | true =>
    by_cases hnone : writtenJobs (ranJobs config tree options cores projects).1 = []
    · simp [(save_of_none hnone).2, hnone]
    · simp [(save_of_some hnone).2, hnone]

/-! ## The whole run -/

/-- What a run comes to, where `ran` is what its jobs come to. -/
structure Settles (options : Options) (workers : Nat) (config : Config) (projects : List String) (tree : FileTree)
    (ran : List Report × FileTree) (result : Result) : Prop where
  /-- There is one report for each job that is planned, in the order of the projects. -/
  reports : ran.1.map (·.job) = plannedJobs config tree options projects ∧
    ((plannedJobs config tree options projects).map (·.project)).Sublist projects
  refused : ∀ name ∈ projects, ∀ problem, config.plan tree name options.project = .error problem →
    problem.messageWhilePreparing name ∈ result.messages ∧
      (problem.messageWhilePreparing name).isFailure = true
  told : ∀ report ∈ ran.1, report.outcome.isWritten = false →
    ∃ message ∈ reportMessages report, message ∈ result.messages ∧ message.isFailure = true
  exit : result.exitStatus = 1 ↔
    (∃ name ∈ projects, ∃ problem, config.plan tree name options.project = .error problem) ∨
    (∃ report ∈ ran.1, report.outcome.isWritten = false) ∨
    (options.save = true ∧ writtenJobs ran.1 ≠ [] ∧
      ∃ problem, (config.applyAll (writtenJobs ran.1)).save ran.2 = .error problem)
  unsaved : options.save = false ∨ writtenJobs ran.1 = [] → result.tree = ran.2
  /-- If the jobs leave the configuration file alone it is written over with the settings of the written jobs,
  unless that fails. -/
  saved : options.save = true → writtenJobs ran.1 ≠ [] → ran.2.readAt config.path = tree.readAt config.path →
    (∃ problem, (config.applyAll (writtenJobs ran.1)).save ran.2 = .error problem) ∧ result.tree = ran.2 ∨
    ∃ location, result.tree.readAt config.path = .ok (location, (config.applyAll (writtenJobs ran.1)).text) ∧
      ∀ other ≠ location, result.tree.entryAt other = ran.2.entryAt other
  entries : ∀ name ∉ (writtenJobs ran.1).map (·.project),
    (config.applyAll (writtenJobs ran.1)).projectEntries? name = config.projectEntries? name
  /-- If the jobs are apart, those that cannot be loaded or compiled write nothing. The others come to the same
  without them exactly if before each of these a worker is left. -/
  failing : Pool.Apart (plannedJobs config tree options projects) tree →
    (∃ count, ran.2 =
      Pool.filesAfter ((Pool.healthy (plannedJobs config tree options projects) tree).take count) tree) ∧
    (ran.1.filter (·.job.compiles tree) =
        (Pool.run workers (Pool.healthy (plannedJobs config tree options projects) tree) tree).1 ↔
      Pool.Served (max workers 1) (plannedJobs config tree options projects) tree) ∧
    (Pool.Served (max workers 1) (plannedJobs config tree options projects) tree →
      ran.2 = (Pool.run workers (Pool.healthy (plannedJobs config tree options projects) tree) tree).2)

theorem settles_run (h : start tree options = .ok (config, projects)) :
    Settles options (workerCount options cores) config projects tree (ranJobs config tree options cores projects)
      (run options cores tree) := by
  constructor
  case reports => exact ⟨Pool.run_jobs .., map_project_plannedJobs ..⟩
  case refused =>
    intro name hname problem hplan
    have hprepare : prepare config tree options name = .failed name problem := by rw [prepare, hplan]
    refine ⟨?_, problem.isFailure_message⟩
    rw [run_eq h]
    refine List.mem_append_left _ (List.mem_append_left _ (List.mem_flatMap.2 ⟨_, List.mem_map_of_mem hname, ?_⟩))
    rw [hprepare]
    exact List.mem_singleton_self _
  case told =>
    intro report hm hfailed
    have hany := any_reportMessages hm
    rw [hfailed] at hany
    obtain ⟨message, hmessage, hfailure⟩ := List.any_eq_true.1 hany
    refine ⟨message, hmessage, ?_, hfailure⟩
    rw [run_eq h]
    exact List.mem_append_left _ (List.mem_append_right _ (List.mem_flatMap.2 ⟨report, hm, hmessage⟩))
  case exit => exact exitStatus_run h
  case unsaved =>
    intro hnone
    rw [run_eq h]
    rcases hnone with hsave | hnone
    · simp [hsave]
    · cases hsave : options.save with
      | false => rfl
      | true => exact (save_of_none hnone).1
  case saved =>
    intro hsave hsome hkept
    have htree : (run options cores tree).tree =
        ((config.applyAll (writtenJobs (ranJobs config tree options cores projects).1)).save
          (ranJobs config tree options cores projects).2).toOption.getD
            (ranJobs config tree options cores projects).2 := by
      rw [run_eq h]
      simp only [hsave, if_true]
      exact (save_of_some hsome).1
    rw [htree]
    cases hs : (config.applyAll (writtenJobs (ranJobs config tree options cores projects).1)).save
        (ranJobs config tree options cores projects).2 with
    | error problem => exact .inl ⟨⟨problem, rfl⟩, rfl⟩
    | ok files =>
      obtain ⟨⟨_, hread, -⟩, -⟩ := of_start h
      obtain ⟨⟨location, old⟩, hat, -⟩ := exists_ok_of_bind hread
      exact .inr ⟨location, readAt_save (hkept.trans hat) hs⟩
  case entries => exact fun name hname => Config.projectEntries?_applyAll config hname
  case failing =>
    intro hapart
    obtain ⟨hiff, hfiles⟩ := Pool.runWith_healthy_iff hapart (show 0 < max (workerCount options cores) 1 by omega)
    exact ⟨Pool.exists_filesAfter_healthy hapart _, hiff, hfiles⟩

/-- A run that cannot read its configuration or find its projects tells why and does nothing. Otherwise the
projects are those that are asked for, and `Settles` tells what the run comes to. -/
theorem run_settles (options : Options) (cores : Nat) (tree : FileTree) :
    ((∃ config projects, start tree options = .ok (config, projects)) ↔
      ∃ path config known, configPath tree options = .ok path ∧ Config.read tree path = .ok config ∧
        config.projectNames = .ok known ∧ ∀ name ∈ options.project.projects, name ∈ known) ∧
    (∀ problem, start tree options = .error problem → Refuses tree options problem ∧
      run options cores tree = ⟨[problem.message], tree⟩ ∧ (run options cores tree).exitStatus = 1) ∧
    ∀ config projects, start tree options = .ok (config, projects) →
      (∃ known, config.projectNames = .ok known ∧ known ≠ [] ∧
        IsSelection known options.project.projects projects) ∧
      Settles options (workerCount options cores) config projects tree
        (ranJobs config tree options cores projects) (run options cores tree) := by
  refine ⟨exists_start_iff, fun problem h => ?_, fun config projects h => ⟨?_, settles_run h⟩⟩
  · have hrun : run options cores tree = ⟨[problem.message], tree⟩ := by simp only [run, h]
    rw [hrun, exitStatus_eq_one_iff]
    exact ⟨refuses_of_start h, rfl, by simpa using problem.isFailure_message⟩
  · obtain ⟨⟨_, -, htext⟩, hselect⟩ := of_start h
    exact Config.isSelection_of_select (Config.distinct_ofText htext) hselect

/-! ## A project that stops and one that is written -/

/-- A configuration of two projects, where the schema of the first cannot be cut. -/
def pairText : String :=
  "\x7b\"projects\":\x7b\"torn\":\x7b\"schemaPath\":\"t\",\"extensions\":" ++
    "\x7b\"generate-fragments\":\x7b\"output\":\"o\"\x7d\x7d\x7d," ++
    "\"fine\":\x7b\"schemaPath\":\"f\",\"extensions\":" ++
    "\x7b\"generate-fragments\":\x7b\"output\":\"p\"\x7d\x7d\x7d\x7d\x7d"

def pairEntries (schema output : String) : Data.Entries :=
  [("schemaPath", .text schema), ("extensions", .map [("generate-fragments", .map [("output", .text output)])])]

def pairConfig : Config :=
  ⟨⟨"c"⟩, .json, [("projects", .map [("torn", .map (pairEntries "t" "o")), ("fine", .map (pairEntries "f" "p"))])]⟩

def pairTornText : String := "\"\"\"\n a\n\u3000b\n\"\"\"\ntype Torn\n"

def pairTree : FileTree where
  workingDirectory := ["w"]
  entries :=
    [(["w"], .directory), (["w", "c"], .file (some pairText)), (["w", "t"], .file (some pairTornText)),
      (["w", "f"], .file (some "type Fine\n"))]

def pairOptions (projects : List String) (threads : Nat) (save : Bool) : Options :=
  { config := some ⟨"c"⟩, project := ⟨projects, none, some "graphql"⟩, save, threads := some threads }

def pairTorn : Job := ⟨"torn", ⟨"./t"⟩, ⟨"./o"⟩, .graphql, ⟨"o", "graphql"⟩⟩

def pairFine : Job := ⟨"fine", ⟨"./f"⟩, ⟨"./p"⟩, .graphql, ⟨"p", "graphql"⟩⟩

/-- The files once the fragments of the second project are written. -/
def pairWritten (text : String) : FileTree := pairTree.put ["w", "p"] (.file (some text))

theorem directory_pairConfig : pairConfig.directory = ⟨"."⟩ := by cbv

theorem read_pairConfig : Config.read pairTree ⟨"c"⟩ = .ok pairConfig := by
  have hread : pairTree.read ⟨"c"⟩ = .ok pairText := by cbv
  have hformat : Config.Format.ofPath ⟨"c"⟩ = .json := by cbv
  have hentries : Json.readMap pairText = some pairConfig.entries := by cbv
  simp only [Config.read, hread, Config.ofText, hformat, hentries]
  rfl

theorem start_pairTree {projects selected : List String} (threads : Nat) (save : Bool)
    (hselect : pairConfig.select ⟨projects, none, some "graphql"⟩ = .ok selected) :
    start pairTree (pairOptions projects threads save) = .ok (pairConfig, selected) := by
  rw [start_eq, configPath, pairOptions]
  simp only [read_pairConfig, hselect, bind, Except.bind]

theorem prepare_pairConfig {name schema output : String} {input target : Path} (projects : List String) (threads : Nat)
    (save : Bool)
    (hproject : pairConfig.project name = .ok ⟨some schema, { generation := some ⟨some output, none⟩ }⟩)
    (hinput : (Path.mk ".").join ⟨schema⟩ = input) (htarget : (Path.mk ".").join ⟨output⟩ = target)
    (hfile : pairTree.isFile input = true) : prepare pairConfig pairTree (pairOptions projects threads save) name =
      .planned ⟨name, input, target, .graphql, ⟨output, "graphql"⟩⟩ := by
  have hdialect : Dialect.ofGenerator "graphql" = .graphql := by decide +kernel
  have hplan : pairConfig.plan pairTree name (pairOptions projects threads save).project =
      .ok (some ⟨name, input, target, .graphql, ⟨output, "graphql"⟩⟩) := by
    refine Config.plan_eq_some_iff.2
      ⟨_, hproject, by simp [Config.Project.isConfigured], rfl, ?_, ?_, rfl, hdialect.symm⟩
    · rw [Config.outputOf, directory_pairConfig, ← htarget]
      rfl
    · refine Config.schemaOf_eq_ok_iff.2 ⟨schema, rfl, ?_, hfile⟩
      rw [directory_pairConfig, hinput]
  rw [prepare, hplan]

theorem prepare_torn (projects : List String) (threads : Nat) (save : Bool) :
    prepare pairConfig pairTree (pairOptions projects threads save) "torn" = .planned pairTorn := by
  have hproject : pairConfig.project "torn" = .ok ⟨some "t", { generation := some ⟨some "o", none⟩ }⟩ := by cbv
  have hfile : pairTree.isFile ⟨"./t"⟩ = true := by cbv
  exact prepare_pairConfig projects threads save hproject (by decide +kernel) (by decide +kernel) hfile

theorem prepare_fine (projects : List String) (threads : Nat) (save : Bool) :
    prepare pairConfig pairTree (pairOptions projects threads save) "fine" = .planned pairFine := by
  have hproject : pairConfig.project "fine" = .ok ⟨some "f", { generation := some ⟨some "p", none⟩ }⟩ := by cbv
  have hfile : pairTree.isFile ⟨"./f"⟩ = true := by cbv
  exact prepare_pairConfig projects threads save hproject (by decide +kernel) (by decide +kernel) hfile

theorem compile_pairTorn {files : FileTree}
    (h : files.find ⟨"./t"⟩ = .ok (["w", "t"], some (.file (some pairTornText)))) : pairTorn.compile files = none := by
  have hread : files.readAt pairTorn.schema = .ok (["w", "t"], pairTornText) := FileTree.readAt_eq_ok_iff.2 h
  have hholds : Import.holdsDefinitions pairTornText = true := by decide +kernel
  have hparse : Document.parse pairTornText = .error .tornBlockString := by cbv
  exact Job.compile_of_torn hread hholds hparse

theorem compile_pairTorn_pairTree : pairTorn.compile pairTree = none := by
  have hfind : pairTree.find ⟨"./t"⟩ = .ok (["w", "t"], some (.file (some pairTornText))) := by cbv
  exact compile_pairTorn hfind

theorem compile_pairFine : ∃ compiled, pairFine.compile pairTree = some (.ok compiled) ∧
    compiled.fragments.standard.length = 1 := by
  have hfind : pairTree.find ⟨"./f"⟩ = .ok (["w", "f"], some (.file (some "type Fine\n"))) := by cbv
  have hread : pairTree.readAt pairFine.schema = .ok (["w", "f"], "type Fine\n") := FileTree.readAt_eq_ok_iff.2 hfind
  exact Pool.exists_compile_fine hread rfl

theorem write_pairFine (compiled : Compiled) : pairFine.write compiled pairTree =
    (.written compiled.fragments.standard.length, pairWritten compiled.contents) := by
  have hfind : pairTree.find pairFine.output = .ok (["w", "p"], none) := by cbv
  exact Job.write_of_find (by cbv) (by cbv) hfind (by simp)

/-- Neither project has to do with the files of the other. -/
theorem apart_pairTorn_pairFine : Pool.Apart [pairTorn, pairFine] pairTree := by
  refine Pool.apart_pair ["w", "p"] (by simp [compile_pairTorn_pairTree]) ?_ ?_ ?_
  · intro text
    have hfind : (pairWritten text).find ⟨"./t"⟩ = .ok (["w", "t"], some (.file (some pairTornText))) := by cbv
    exact (compile_pairTorn hfind).trans compile_pairTorn_pairTree.symm
  · intro compiled
    rw [write_pairFine, pairWritten]
  · intro compiled text
    have hfind : (pairWritten text).find pairFine.output = .ok (["w", "p"], some (.file (some text))) := by cbv
    have hwrite := @Job.write_of_find pairFine (pairWritten text) _ compiled _ (by cbv) (by cbv) hfind (by simp)
    rw [← pairWritten, hwrite, pairWritten, FileTree.put_put]

theorem plannedJobs_pair (threads : Nat) (save : Bool) :
    plannedJobs pairConfig pairTree (pairOptions ["torn", "fine"] threads save) ["torn", "fine"] =
      [pairTorn, pairFine] := by
  simp [plannedJobs, prepare_torn, prepare_fine, Preparation.job?]

theorem start_pair (threads : Nat) (save : Bool) :
    start pairTree (pairOptions ["torn", "fine"] threads save) = .ok (pairConfig, ["torn", "fine"]) :=
  start_pairTree threads save (by cbv)

theorem write_pairConfig (text new : String) :
    (pairWritten text).write pairConfig.path new = .ok ((pairWritten text).put ["w", "c"] (.file (some new))) := by
  have hfind : (pairWritten text).find ⟨"c"⟩ = .ok (["w", "c"], some (.file (some pairText))) := by cbv
  exact FileTree.write_of_find (by cbv) hfind (by simp)

/-- A project that stops takes nothing from the other one as long as a worker is left: its fragments are written
and its settings saved, and the run fails. -/
theorem pairTorn_pairFine_settle : (run (pairOptions ["torn", "fine"] 2 true) 1 pairTree).exitStatus = 1 ∧
    (∃ location, (run (pairOptions ["torn", "fine"] 2 true) 1 pairTree).tree.readAt ⟨"c"⟩ =
      .ok (location, (pairConfig.applySettings "fine" ⟨"p", "graphql"⟩).text)) ∧
    (ranJobs pairConfig pairTree (pairOptions ["torn", "fine"] 2 true) 1 ["torn", "fine"]).1.filter
        (·.job.compiles pairTree) = (Pool.run 2 [pairFine] pairTree).1 := by
  obtain ⟨-, hsettles⟩ := (run_settles (pairOptions ["torn", "fine"] 2 true) 1 pairTree).2.2 _ _ (start_pair 2 true)
  obtain ⟨compiled, hcompile, hlength⟩ := compile_pairFine
  have hran : ranJobs pairConfig pairTree (pairOptions ["torn", "fine"] 2 true) 1 ["torn", "fine"] =
      ([⟨pairTorn, .stopped⟩, ⟨pairFine, .written 1⟩], pairWritten compiled.contents) := by
    have hrun : Pool.run 2 [pairTorn, pairFine] pairTree =
        ([⟨pairTorn, .stopped⟩, ⟨pairFine, .written 1⟩], pairWritten compiled.contents) := by
      simp [Pool.run, Pool.runWith, Job.run, compile_pairTorn_pairTree, hcompile, write_pairFine, hlength]
    rw [ranJobs, plannedJobs_pair]
    exact hrun
  have hwritten : writtenJobs [⟨pairTorn, .stopped⟩, ⟨pairFine, .written 1⟩] = [pairFine] := rfl
  have hhealthy : Pool.healthy [pairTorn, pairFine] pairTree = [pairFine] := by
    rw [Pool.healthy_cons_of_neg (by simp [Job.compiles, compile_pairTorn_pairTree]),
      Pool.healthy_cons_of_pos (Job.compiles_iff.2 ⟨compiled, hcompile⟩)]
    rfl
  refine ⟨hsettles.exit.2 (.inr (.inl ⟨⟨pairTorn, .stopped⟩, by simp [hran], rfl⟩)), ?_, ?_⟩
  · have hkept : (pairWritten compiled.contents).readAt ⟨"c"⟩ = pairTree.readAt ⟨"c"⟩ := by
      have hfind : (pairWritten compiled.contents).find ⟨"c"⟩ = .ok (["w", "c"], some (.file (some pairText))) := by cbv
      have hfind' : pairTree.find ⟨"c"⟩ = .ok (["w", "c"], some (.file (some pairText))) := by cbv
      rw [FileTree.readAt_eq_ok_iff.2 hfind, FileTree.readAt_eq_ok_iff.2 hfind']
    have hsaved := hsettles.saved rfl (by rw [hran, hwritten]; simp) (by rw [hran]; exact hkept)
    rw [hran, hwritten] at hsaved
    rcases hsaved with ⟨⟨problem, hproblem⟩, -⟩ | ⟨location, hread, -⟩
    · rw [Config.save, Config.path_applyAll, write_pairConfig] at hproblem
      cases hproblem
    · exact ⟨location, hread⟩
  · have hserved : Pool.Served (max (workerCount (pairOptions ["torn", "fine"] 2 true) 1) 1)
        [pairTorn, pairFine] pairTree := fun number _ hjob _ =>
      Nat.lt_of_le_of_lt (Pool.stopsBefore_le _ number) (List.getElem?_eq_some_iff.1 hjob).1
    have hfailing := hsettles.failing (by rw [plannedJobs_pair]; exact apart_pairTorn_pairFine)
    rw [plannedJobs_pair, hhealthy] at hfailing
    exact hfailing.2.1.2 hserved

/-- The only worker stops with the first project, and the second one is not written although it would be if it
were alone. -/
theorem pairTorn_stops_pairFine : Pool.Apart (plannedJobs pairConfig pairTree (pairOptions ["torn", "fine"] 1 false)
      ["torn", "fine"]) pairTree ∧
    (∃ compiled, pairFine.compile pairTree = some (.ok compiled)) ∧
    (run (pairOptions ["torn", "fine"] 1 false) 1 pairTree).tree = pairTree ∧
    ∃ text, (run (pairOptions ["fine"] 1 false) 1 pairTree).tree = pairWritten text := by
  have hstart : start pairTree (pairOptions ["fine"] 1 false) = .ok (pairConfig, ["fine"]) :=
    start_pairTree 1 false (by cbv)
  have hplanned : plannedJobs pairConfig pairTree (pairOptions ["fine"] 1 false) ["fine"] = [pairFine] := by
    simp [plannedJobs, prepare_fine, Preparation.job?]
  obtain ⟨compiled, hcompile, -⟩ := compile_pairFine
  have halone : (Pool.run 1 [pairFine] pairTree).2 = pairWritten compiled.contents := by
    simp [Pool.run, Pool.runWith, Job.run, hcompile, write_pairFine]
  have hstops : (Pool.run 1 [pairTorn, pairFine] pairTree).2 = pairTree := by
    simp [Pool.run, Pool.runWith, Job.run, compile_pairTorn_pairTree]
  refine ⟨by rw [plannedJobs_pair]; exact apart_pairTorn_pairFine, ⟨compiled, hcompile⟩, ?_, compiled.contents, ?_⟩
  · rw [(settles_run (start_pair 1 false)).unsaved (.inl rfl), ranJobs, plannedJobs_pair]
    exact hstops
  · rw [(settles_run hstart).unsaved (.inl rfl), ranJobs, hplanned]
    exact halone

end Run

end SchemaFragments
