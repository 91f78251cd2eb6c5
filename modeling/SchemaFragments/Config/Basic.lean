import SchemaFragments.Config.Problem
import SchemaFragments.Config.Project
import SchemaFragments.Job
import SchemaFragments.Json.Reader
import SchemaFragments.Yaml.Printer
/-!
# Configuration files

A configuration file is kept as the map it holds, so that saving it changes nothing but the settings that
were applied. It holds one project, or a map of projects by their names.
-/

namespace SchemaFragments

namespace Config

inductive Format where
  | json
  | yaml
deriving DecidableEq, Repr

/-- The format of a file, by its extension. -/
def Format.ofPath (path : Path) : Format :=
  match path.extension? with
  | some "yaml" | some "yml" => .yaml
  | _ => .json

/-- The name of the only project of a file. -/
def defaultProject : String := "default"

end Config

structure Config where
  path : Path
  format : Config.Format
  entries : Data.Entries
deriving Repr

namespace Config

/-! ## Reading and writing -/

def ofText (path : Path) (text : String) : Except Problem Config :=
  match Format.ofPath path with
  | .json =>
    match Json.readMap text with
    | some entries => .ok ⟨path, .json, entries⟩
    | none => .error (.inFile path .malformed)
  | .yaml =>
    match Yaml.readMap text with
    | .ok entries => .ok ⟨path, .yaml, entries⟩
    | .error error => .error (.inFile path (.malformedYaml error))

theorem path_ofText {path : Path} {text : String} {config : Config} (h : ofText path text = .ok config) :
    config.path = path := by
  unfold ofText at h
  split at h
  · split at h <;> cases h
    rfl
  · split at h <;> cases h
    rfl

/-- A text that is not read is malformed, and the problem names its file. -/
theorem fault_of_ofText {path : Path} {text : String} {problem : Problem} (h : ofText path text = .error problem) :
    ∃ fault, problem = .inFile path fault ∧ fault.isMalformed = true := by
  unfold ofText at h
  split at h
  · split at h <;> cases h
    exact ⟨_, rfl, rfl⟩
  · split at h <;> cases h
    exact ⟨_, rfl, rfl⟩

def read (tree : FileTree) (path : Path) : Except Problem Config :=
  match tree.read path with
  | .ok text => ofText path text
  | .error error => .error (.unreadable path error)

theorem exists_text_of_read {tree : FileTree} {path : Path} {config : Config} (h : read tree path = .ok config) :
    ∃ text, tree.read path = .ok text ∧ ofText path text = .ok config := by
  unfold read at h
  split at h
  · rename_i text htext
    exact ⟨text, htext, h⟩
  · cases h

/-- The text of a configuration in the format it was read in. It ends in a line end. -/
def text (config : Config) : String :=
  match config.format with
  | .json => Json.printMap config.entries ++ "\n"
  | .yaml => Yaml.printMap config.entries

def save (config : Config) (tree : FileTree) : Except Problem FileTree :=
  match tree.write config.path config.text with
  | .ok tree => .ok tree
  | .error error => .error (.unwritable config.path error)

/-! ## Projects -/

/-- The directory that the paths in a configuration start from. -/
def directory (config : Config) : Path :=
  match config.path.parent? with
  | some parent => if parent.text.isEmpty then ⟨"."⟩ else parent
  | none => ⟨"."⟩

/-- Whether the file is about one project. -/
def isSingle (config : Config) : Bool :=
  (config.entries.lookup "projects").isNone && (config.entries.lookup "schemaPath").isSome

def fault (config : Config) (fault : Fault) : Problem := .inFile config.path fault

/-- The names of the projects in the order of the file. -/
def projectNames (config : Config) : Except Problem (List String) :=
  if config.isSingle then .ok [defaultProject]
  else match config.entries.lookup "projects" with
    | some (.map (project :: projects)) => .ok ((project :: projects).map (·.1))
    | some (.map []) | none => .error (config.fault .noProjects)
    | some _ => .error (config.fault .projectsNotMap)

/-- The entries of a project. -/
def projectEntries? (config : Config) (name : String) : Option Data.Entries :=
  if config.isSingle then if name = defaultProject then some config.entries else none
  else do
    let projects ← (← config.entries.lookup "projects").entries?
    (← projects.lookup name).entries?

def project (config : Config) (name : String) : Except Problem Project :=
  match config.projectEntries? name with
  | none => .error (config.fault (.projectNotMap name))
  | some entries =>
    match Project.kind.read (.map entries) with
    | .ok project => .ok project
    | .error error => .error (config.fault (.badProject name error))

/-! ## Settings -/

/-- Changes the value of a key that is there. -/
def updateAt (key : String) (change : Data.Entries → Data.Entries) (entries : Data.Entries) : Data.Entries :=
  match entries.lookup key with
  | some (.map inner) => entries.set key (.map (change inner))
  | _ => entries

/-- Changes the map at a key; what is there instead is replaced by an empty map first. -/
def changeMap (key : String) (change : Data.Entries → Data.Entries) (entries : Data.Entries) : Data.Entries :=
  entries.set key (.map (change (((entries.lookup key).bind Data.entries?).getD [])))

/-- The entries of a project with settings for generating fragments. -/
def withSettings (settings : Settings) : Data.Entries → Data.Entries :=
  changeMap "extensions" fun extensions =>
    changeMap generationKey (fun generation =>
      (generation.set "output" (.text settings.output)).set "generator" (.text settings.generator))
      (extensions.remove legacyKey)

/-- Sets the output and the generator of a project. Without such a project nothing changes. -/
def applySettings (config : Config) (name : String) (settings : Settings) : Config :=
  if config.isSingle then
    if name = defaultProject then { config with entries := withSettings settings config.entries } else config
  else
    { config with
      entries := updateAt "projects" (updateAt name (withSettings settings)) config.entries }

end Config

end SchemaFragments
