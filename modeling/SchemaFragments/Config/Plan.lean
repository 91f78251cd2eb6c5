import SchemaFragments.Config.Basic
/-!
# Planning

Which projects are to be processed, and what is to be done for each of them: options of the command line
come before what the configuration says.
-/

namespace SchemaFragments.Config

/-- What the command line says about projects. -/
structure Options where
  projects : List String := []
  outputDirectory : Option Path := none
  generator : Option String := none
deriving DecidableEq, Repr

/-- The projects to process: those asked for, or all of them. -/
def select (config : Config) (options : Options) : Except Problem (List String) := do
  let known ← config.projectNames
  if options.projects.isEmpty then return known
  match options.projects.find? (!known.contains ·) with
  | some name => throw (config.fault (.unknownProject name known))
  | none => return options.projects.eraseDups

/-- The path to write to, and the output to be set for it: from the directory of the configuration, where
the path lies beneath it. -/
def outputOf (config : Config) (workingDirectory : Path) (name : String) (options : Options)
    (project : Project) (dialect : Dialect) : Except Problem (Path × String) :=
  match options.outputDirectory with
  | some directory =>
    let path := directory.join ⟨name ++ ".fragments." ++ dialect.extension⟩
    let setting := (Path.relativeTo workingDirectory config.directory path).getD path
    .ok (path, setting.text)
  | none =>
    match project.output? with
    | some output => .ok (config.directory.join ⟨output⟩, output)
    | none => .error (config.fault .noOutput)

/-- The schema to read, which must be there. -/
def schemaOf (config : Config) (tree : FileTree) (project : Project) : Except Problem Path :=
  match project.schema? with
  | none => .error (config.fault .noSchema)
  | some schema =>
    let path := config.directory.join ⟨schema⟩
    if tree.isFile path then .ok path
    else .error (config.fault (.missingSchema path project.prepareBundle?.isSome))

/-- The job for a project; none when fragments are neither configured nor asked for. -/
def plan (config : Config) (tree : FileTree) (name : String) (options : Options) :
    Except Problem (Option Job) := do
  let project ← config.project name
  if options.projects.isEmpty && !project.isConfigured then return none
  match options.generator <|> project.generator? with
  | none => throw .noGenerator
  | some generator =>
    let dialect := Dialect.ofGenerator generator
    let (output, setting) ← config.outputOf tree.workingPath name options project dialect
    let schema ← config.schemaOf tree project
    return some ⟨name, schema, output, dialect, ⟨setting, generator⟩⟩

end SchemaFragments.Config
