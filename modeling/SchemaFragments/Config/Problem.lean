import SchemaFragments.Config.Record
import SchemaFragments.Message
import SchemaFragments.Text.Similarity
import SchemaFragments.Yaml.Reader
/-!
# Problems of configuration

What can be wrong with a configuration file and with the settings of a project, and the messages about it.

Left out is what a JSON or YAML library says about a text that is no map: where reading broke off, and what was
expected there. `malformedDetail` stands for all of it.
-/

namespace SchemaFragments.Config

/-- What is wrong within a configuration file. -/
inductive Fault where
  /-- A JSON text is no map. -/
  | malformed
  /-- A YAML text is no map. -/
  | malformedYaml (error : Yaml.ReadError)
  | noProjects
  | projectsNotMap
  | projectNotMap (project : String)
  | badProject (project : String) (error : RecordError)
  | unknownProject (project : String) (known : List String)
  | noOutput
  | noSchema
  /-- The schema is no file; it may have to be bundled first. -/
  | missingSchema (schema : Path) (bundled : Bool)
deriving Repr

/-- Stands for all that a library may say about a text that is no map. -/
def malformedDetail : String := "the text is not a map at line 1 column 1"

def Fault.detail : Fault → String
  | .malformed | .malformedYaml .malformed => malformedDetail
  | .malformedYaml .noDocument => "EOF while parsing a value"
  | .malformedYaml .severalDocuments =>
    "deserializing from YAML containing more than one document is not supported"
  | .malformedYaml .tooManyAliases => "repetition limit exceeded"
  | .noProjects => "No projects defined in config file"
  | .projectsNotMap => "`projects` must be an object"
  | .projectNotMap project => "project `" ++ project ++ "` must be an object"
  | .badProject project error => "in project `" ++ project ++ "`: " ++ error.message
  | .unknownProject project _ => "unknown project `" ++ project ++ "`"
  | .noOutput =>
    "Output path cannot be determined. No existing configuration found and no output parameter specified."
  | .noSchema => "Input schema cannot be determined."
  | .missingSchema schema bundled =>
    "Schema '" ++ schema.text ++ "' not found." ++ if bundled then " Did you run bundle first?" else ""

/-- Whether the text of the file could not be read as a map. -/
def Fault.isMalformed : Fault → Bool
  | .malformed | .malformedYaml _ => true
  | _ => false

def Fault.help : Fault → Option String
  | .unknownProject project known =>
    some ("Check the projects defined in the config file." ++ (Text.suggestion project known).getD "")
  | _ => none

/-- The names under which a configuration file is looked for, in this order. -/
def fileNames : List String := [".graphqlconfig", ".graphqlconfig.yaml", ".graphqlconfig.yml"]

inductive Problem where
  /-- There is no configuration file in a directory or above it. -/
  | notFound (start : Path)
  | unreadable (path : Path) (error : FileError)
  | unwritable (path : Path) (error : FileError)
  | inFile (path : Path) (fault : Fault)
  | noGenerator
deriving Repr

def Problem.message : Problem → Message
  | .notFound start =>
    { level := .programError
      title := "no config file found in `" ++ start.text ++ "` or any parent directory"
      help := some ("Create one of " ++ ", ".intercalate (fileNames.map fun name => "`" ++ name ++ "`") ++
        " or pass its path with `--config`.") }
  | .unreadable path error => .unreadable path error
  | .unwritable path error => .unwritable path error
  | .inFile path fault =>
    { level := .programError
      title := "error in config file `" ++ path.text ++ "`: " ++ fault.detail
      help := fault.help }
  | .noGenerator =>
    { level := .error
      title := "Generator cannot be determined. No existing configuration found and no generator parameter specified." }

/-- The message about a problem of a project that is being prepared. -/
def Problem.messageWhilePreparing (problem : Problem) (project : String) : Message :=
  { problem.message with help := some ("while preparing project `" ++ project ++ "`") }

end SchemaFragments.Config
