import SchemaFragments.CommandLine
import SchemaFragments.Config.Discovery
import SchemaFragments.Pool
/-!
# Runs

A run of the program, from its options to what is printed and what is written: projects are planned, their
jobs run, and the settings of those that were written are saved when that is asked for.
-/

namespace SchemaFragments.Run

/-! ## Preparation -/

/-- What is to be done for a project. -/
inductive Preparation where
  | planned (job : Job)
  | skipped (project : String)
  | failed (project : String) (problem : Config.Problem)
deriving Repr

def prepare (config : Config) (tree : FileTree) (options : Options) (project : String) : Preparation :=
  match config.plan tree project options.project with
  | .ok (some job) => .planned job
  | .ok none => .skipped project
  | .error problem => .failed project problem

def Preparation.job? : Preparation → Option Job
  | .planned job => some job
  | _ => none

def Preparation.messages (verbose : Bool) : Preparation → List Message
  | .planned _ => []
  | .skipped project =>
    if verbose then
      [{ level := .info
         title := "Generate Fragments not configured for project `" ++ project ++ "`. Skipping" }]
    else []
  | .failed project problem => [problem.messageWhilePreparing project]

/-- Reads the configuration and selects the projects in it. -/
def start (tree : FileTree) (options : Options) : Except Config.Problem (Config × List String) := do
  let path ← match options.config with
    | some path => pure path
    | none => Config.discover tree tree.workingPath
  let config ← Config.read tree path
  return (config, ← config.select options.project)

/-! ## Lookups -/

/-- The paths at which imports of a schema are missing. -/
def importLookups (tree : FileTree) (schema : Path) : List Path :=
  match Import.loadFiles tree schema with
  | .error _ => []
  | .ok loader => loader.problems.filterMap fun
    | .unreadable _ path _ => some path
    | _ => none

def projectLookups (config : Config) (tree : FileTree) (options : Options) (name : String) : List Path :=
  let schema := (config.project name).toOption.bind (·.schema?)
  let found := schema.toList.map fun schema => config.directory.join ⟨schema⟩
  match prepare config tree options name with
  | .planned job => found ++ job.output :: importLookups tree job.schema
  | _ => found

/-- The paths that a run looks at, as far as they are known from the files that are there. Once all of them
are, or are known to be missing, the run does not depend on other files. -/
def lookups (tree : FileTree) (options : Options) : List Path :=
  let configs := match options.config with
    | some path => [path]
    | none => Config.candidates tree.workingPath
  match start tree options with
  | .error _ => configs
  | .ok (config, projects) => configs ++ projects.flatMap (projectLookups config tree options)

/-! ## Reports -/

def reportMessages (report : Report) : List Message :=
  match report.outcome with
  | .written typeCount =>
    (if typeCount = 0 then
      [{ level := .warning
         title := "schema of project `" ++ report.job.project ++
           "` has no object types to generate fragments for" }]
    else []) ++
    [{ level := .success
       title := "Fragments for project `" ++ report.job.project ++ "` written to `" ++
         report.job.output.text ++ "`" }]
  | _ => report.failures

/-- The configuration with the settings of all jobs whose fragments were written. -/
def applyReports (config : Config) (reports : List Report) : Config :=
  (reports.filter (·.outcome.isWritten)).foldl
    (fun config report => config.applySettings report.job.project report.job.settings) config

/-- Saves the configuration if any fragments were written. -/
def save (config : Config) (reports : List Report) (tree : FileTree) : List Message × FileTree :=
  match reports.filter (·.outcome.isWritten) with
  | [] =>
    ([{ level := .warning
        title := "no project compiled successfully, configuration not saved" }], tree)
  | written =>
    match (applyReports config reports).save tree with
    | .error problem => ([problem.message], tree)
    | .ok tree =>
      (written.map fun report =>
        { level := .success
          title := "Configuration for project `" ++ report.job.project ++ "` saved to `" ++
            config.path.text ++ "`" }, tree)

/-! ## The run -/

/-- What a run says, and the files as it leaves them. -/
structure Result where
  messages : List Message
  tree : FileTree

/-- Processes the selected projects of a configuration. -/
def process (config : Config) (projects : List String) (options : Options) (workers : Nat)
    (tree : FileTree) : Result :=
  let prepared := projects.map (prepare config tree options)
  let (reports, tree) := Pool.run workers (prepared.filterMap Preparation.job?) tree
  let (saved, tree) := if options.save then save config reports tree else ([], tree)
  ⟨prepared.flatMap (Preparation.messages options.verbose) ++ reports.flatMap reportMessages ++ saved, tree⟩

/-- How many workers there are: as many as asked for, or one for each of the cores. -/
def workerCount (options : Options) (cores : Nat) : Nat :=
  match options.threads.filter (0 < ·) with
  | some count => count
  | none => if cores ≤ 255 then cores else 4

def run (options : Options) (cores : Nat) (tree : FileTree) : Result :=
  match start tree options with
  | .error problem => ⟨[problem.message], tree⟩
  | .ok (config, projects) => process config projects options (workerCount options cores) tree

/-- Whether a run fails, as the exit status tells. -/
def Result.exitStatus (result : Result) : Nat := if result.messages.any (·.isFailure) then 1 else 0

end SchemaFragments.Run

namespace SchemaFragments

/-- What a call of the program prints, its exit status, and the files as it leaves them. -/
structure Answer where
  output : String
  exitStatus : Nat
  tree : FileTree

/-- Answers a call. Wrong arguments are told by the exit status alone. -/
def answer (arguments : List String) (color : Bool) (cores : Nat) (tree : FileTree) : Answer :=
  match CommandLine.read arguments with
  | none => ⟨"", 2, tree⟩
  | some .help => ⟨CommandLine.helpText, 0, tree⟩
  | some .version => ⟨CommandLine.versionText, 0, tree⟩
  | some (.run options) =>
    let result := Run.run options cores tree
    ⟨Message.renderAll color result.messages, result.exitStatus, result.tree⟩

end SchemaFragments
