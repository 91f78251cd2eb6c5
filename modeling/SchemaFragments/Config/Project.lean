import SchemaFragments.Config.Record
/-!
# Projects

What a configuration file says about one project.
-/

namespace SchemaFragments.Config

/-- The extension that generates fragments. -/
structure Generation where
  output : Option String := none
  generator : Option String := none
deriving DecidableEq, Repr

/-- An extension that puts a schema together. -/
structure Bundle where
  output : Option String := none
deriving DecidableEq, Repr

structure Extensions where
  generation : Option Generation := none
  /-- Whether there is an extension under the old name. -/
  legacy : Bool := false
  prepareBundle : Option Bundle := none
  bundle : Option Bundle := none
deriving DecidableEq, Repr

structure Project where
  schemaPath : Option String := none
  extensions : Extensions := {}
deriving DecidableEq, Repr

/-- The key of the extension that generates fragments. -/
def generationKey : String := "generate-fragments"

/-- The key it had before. -/
def legacyKey : String := "fragments"

def Generation.kind : RecordKind Generation where
  name := "GenerateFragmentsExtension"
  fields := ["output", "generator"]
  empty := {}
  setField record field value :=
    match field with
    | "output" => return { record with output := ← readOptional readText value }
    | "generator" => return { record with generator := ← readOptional readText value }
    | _ => return record

def Bundle.kind : RecordKind Bundle where
  name := "BundleExtension"
  fields := ["output"]
  empty := {}
  setField record field value :=
    match field with
    | "output" => return { record with output := ← readOptional readText value }
    | _ => return record

def Extensions.kind : RecordKind Extensions where
  name := "Extensions"
  fields := [generationKey, legacyKey, "prepare-bundle", "bundle"]
  empty := {}
  setField record field value := do
    if field = generationKey then
      return { record with generation := ← readOptional Generation.kind.read value }
    else if field = legacyKey then
      return { record with legacy := !value.isNull }
    else if field = "prepare-bundle" then
      return { record with prepareBundle := ← readOptional Bundle.kind.read value }
    else if field = "bundle" then
      return { record with bundle := ← readOptional Bundle.kind.read value }
    else return record

def Project.kind : RecordKind Project where
  name := "ProjectConfig"
  fields := ["schemaPath", "extensions"]
  empty := {}
  setField record field value :=
    match field with
    | "schemaPath" => return { record with schemaPath := ← readOptional readText value }
    | "extensions" => return { record with extensions := ← Extensions.kind.read value }
    | _ => return record

namespace Project

/-- Whether fragments are to be generated for a project at all. -/
def isConfigured (project : Project) : Bool :=
  project.extensions.generation.isSome || project.extensions.legacy

def generator? (project : Project) : Option String := do (← project.extensions.generation).generator

def output? (project : Project) : Option String := do (← project.extensions.generation).output

def prepareBundle? (project : Project) : Option String := do (← project.extensions.prepareBundle).output

def bundle? (project : Project) : Option String := do (← project.extensions.bundle).output

/-- The schema to read: a bundle, where one is configured. -/
def schema? (project : Project) : Option String :=
  project.prepareBundle? <|> project.bundle? <|> project.schemaPath

end Project

end SchemaFragments.Config
